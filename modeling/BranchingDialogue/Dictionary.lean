/-!
# Dictionaries

A dictionary is a list of entries in strictly ascending order of their keys, so two dictionaries
with the same lookups are the same dictionary, and listing one needs no further ordering. Entries
are few here (the payload of a node, its ports, the entries of a graph), so a list is enough.

`get?_insert_self` and `get?_insert_ne` say what `insert` does to lookups.
-/

namespace BranchingDialogue

/-- A strict linear order on keys, decidable. -/
class KeyOrder (κ : Type) extends LT κ where
  /-- Keys are compared by a program. -/
  decideLT : DecidableLT κ
  /-- Keys are compared by a program. -/
  decideEq : DecidableEq κ
  irrefl : ∀ a : κ, ¬ a < a
  trans : ∀ {a b c : κ}, a < b → b < c → a < c
  total : ∀ {a b : κ}, ¬ a < b → a ≠ b → b < a

instance KeyOrder.instDecidableLT {κ : Type} [KeyOrder κ] : DecidableLT κ := KeyOrder.decideLT

instance (priority := low) {κ : Type} [KeyOrder κ] : DecidableEq κ := KeyOrder.decideEq

instance : KeyOrder Int where
  decideLT := inferInstance
  decideEq := inferInstance
  irrefl := Int.lt_irrefl
  trans := Int.lt_trans
  total h₁ h₂ := by omega

instance : KeyOrder String where
  decideLT := inferInstance
  decideEq := inferInstance
  irrefl := String.lt_irrefl
  trans := String.lt_trans
  total h₁ h₂ := by
    refine Decidable.byContradiction fun h => h₂ ?_
    exact String.le_antisymm (String.not_lt.1 h) (String.not_lt.1 h₁)

/-- A finite map from keys to values, listed in ascending order of the keys. -/
structure Dictionary (κ β : Type) [KeyOrder κ] where
  /-- The entries, each key once. -/
  entries : List (κ × β)
  /-- The keys ascend strictly. -/
  ascending : entries.Pairwise (fun a b => a.1 < b.1)

namespace Dictionary

variable {κ β γ : Type} [KeyOrder κ]

instance [DecidableEq β] : DecidableEq (Dictionary κ β) := fun a b =>
  decidable_of_iff (a.entries = b.entries)
    ⟨fun h => by cases a; cases b; cases h; rfl, fun h => by rw [h]⟩

/-- The dictionary without entries. -/
def empty : Dictionary κ β := ⟨[], .nil⟩

instance : EmptyCollection (Dictionary κ β) := ⟨empty⟩

instance : Inhabited (Dictionary κ β) := ⟨empty⟩

/-- Puts an entry at its place, in exchange for the one with the same key if there is one. -/
def insertEntry (key : κ) (value : β) : List (κ × β) → List (κ × β)
  | [] => [(key, value)]
  | (k, v) :: rest =>
    if key < k then (key, value) :: (k, v) :: rest
    else if key = k then (key, value) :: rest
    else (k, v) :: insertEntry key value rest

theorem mem_insertEntry {key : κ} {value : β} {e : κ × β} {l : List (κ × β)}
    (h : e ∈ insertEntry key value l) : e = (key, value) ∨ e ∈ l := by
  induction l with
  | nil => simpa [insertEntry] using h
  | cons hd tl ih =>
    obtain ⟨k, v⟩ := hd
    rw [insertEntry] at h
    split at h
    · simpa using h
    · split at h
      · simp only [List.mem_cons] at h ⊢
        rcases h with h | h <;> simp [h]
      · simp only [List.mem_cons] at h ⊢
        rcases h with h | h
        · simp [h]
        · rcases ih h with h | h <;> simp [h]

theorem ascending_insertEntry (key : κ) (value : β) {l : List (κ × β)}
    (h : l.Pairwise (fun a b => a.1 < b.1)) :
    (insertEntry key value l).Pairwise (fun a b => a.1 < b.1) := by
  induction l with
  | nil => simp [insertEntry]
  | cons hd tl ih =>
    obtain ⟨k, v⟩ := hd
    have hk : ∀ e ∈ tl, k < e.1 := fun e he => List.rel_of_pairwise_cons h he
    rw [insertEntry]
    split
    · next hlt =>
      refine List.Pairwise.cons (fun e he => ?_) h
      rcases List.mem_cons.1 he with rfl | he
      · exact hlt
      · exact KeyOrder.trans hlt (hk e he)
    · next hlt =>
      split
      · next heq =>
        subst heq
        exact List.Pairwise.cons (hk) h.of_cons
      · next hne =>
        refine List.Pairwise.cons (fun e he => ?_) (ih h.of_cons)
        rcases mem_insertEntry he with rfl | he
        · exact KeyOrder.total hlt hne
        · exact hk e he

/-- Sets the value of a key. -/
def insert (d : Dictionary κ β) (key : κ) (value : β) : Dictionary κ β :=
  ⟨insertEntry key value d.entries, ascending_insertEntry key value d.ascending⟩

/-- The value of a key. -/
def get? (d : Dictionary κ β) (key : κ) : Option β :=
  (d.entries.find? fun e => decide (e.1 = key)).map (·.2)

/-- Whether a key has a value. -/
def contains (d : Dictionary κ β) (key : κ) : Bool := (d.get? key).isSome

/-- The dictionary of a list of pairs; of several pairs with one key the last counts. -/
def ofList (l : List (κ × β)) : Dictionary κ β :=
  l.foldl (fun d e => d.insert e.1 e.2) empty

/-- The values in ascending order of their keys. -/
def values (d : Dictionary κ β) : List β := d.entries.map (·.2)

/-- The keys in ascending order. -/
def keys (d : Dictionary κ β) : List κ := d.entries.map (·.1)

/-- The number of entries. -/
def size (d : Dictionary κ β) : Nat := d.entries.length

@[simp] theorem get?_empty (key : κ) : (empty : Dictionary κ β).get? key = none := rfl

theorem find?_insertEntry_self (key : κ) (value : β) (l : List (κ × β)) :
    (insertEntry key value l).find? (fun e => decide (e.1 = key)) = some (key, value) := by
  induction l with
  | nil => simp [insertEntry]
  | cons hd tl ih =>
    obtain ⟨k, v⟩ := hd
    rw [insertEntry]
    split
    · simp
    · split
      · simp
      · next hne => simp [ih, Ne.symm hne]

@[simp] theorem get?_insert_self (d : Dictionary κ β) (key : κ) (value : β) :
    (d.insert key value).get? key = some value := by
  simp [get?, insert, find?_insertEntry_self]

theorem find?_insertEntry_ne {key key' : κ} (value : β) (h : key ≠ key') (l : List (κ × β)) :
    (insertEntry key value l).find? (fun e => decide (e.1 = key'))
      = l.find? (fun e => decide (e.1 = key')) := by
  induction l with
  | nil => simp [insertEntry, h]
  | cons hd tl ih =>
    obtain ⟨k, v⟩ := hd
    rw [insertEntry]
    split
    · simp [h]
    · split
      · next heq => subst heq; simp [h]
      · simp [List.find?_cons, ih]

theorem get?_insert_ne (d : Dictionary κ β) {key key' : κ} (value : β) (h : key ≠ key') :
    (d.insert key value).get? key' = d.get? key' := by
  simp [get?, insert, find?_insertEntry_ne value h]

end Dictionary

end BranchingDialogue
