import BranchingDialogue.Dictionary
import Mathlib.Data.List.Induction
import Mathlib.Data.List.Sort

/-!
# Dictionaries are their lookups

A dictionary keeps its keys in strict order, so two dictionaries that answer every lookup alike
list the same entries in the same order: `ext_get?`. With it a dictionary that was built entry by
entry is compared with one that is only described.
-/

namespace BranchingDialogue.Dictionary

variable {κ β : Type} [KeyOrder κ]

theorem mem_entries_of_get? {d : Dictionary κ β} {key : κ} {value : β}
    (h : d.get? key = some value) : (key, value) ∈ d.entries := by
  rw [get?, Option.map_eq_some_iff] at h
  obtain ⟨⟨k, v⟩, hfind, hv⟩ := h
  have hk : k = key := by simpa using List.find?_some hfind
  subst hk hv
  exact List.mem_of_find?_eq_some hfind

/-- No key is listed twice. -/
theorem eq_of_mem_entries {d : Dictionary κ β} {key : κ} {v w : β}
    (hv : (key, v) ∈ d.entries) (hw : (key, w) ∈ d.entries) : v = w := by
  obtain ⟨i, hi, hiv⟩ := List.getElem_of_mem hv
  obtain ⟨j, hj, hjw⟩ := List.getElem_of_mem hw
  have hascending := List.pairwise_iff_getElem.1 d.ascending
  rcases Nat.lt_trichotomy i j with hlt | heq | hlt
  · have hkey := hascending i j hi hj hlt
    rw [hiv, hjw] at hkey
    exact absurd hkey (KeyOrder.irrefl key)
  · subst heq
    exact (Prod.mk.inj (hiv.symm.trans hjw)).2
  · have hkey := hascending j i hj hi hlt
    rw [hiv, hjw] at hkey
    exact absurd hkey (KeyOrder.irrefl key)

theorem get?_eq_some_iff {d : Dictionary κ β} {key : κ} {value : β} :
    d.get? key = some value ↔ (key, value) ∈ d.entries := by
  refine ⟨mem_entries_of_get?, fun h => ?_⟩
  cases hg : d.get? key with
  | none =>
    rw [get?, Option.map_eq_none_iff] at hg
    simpa using List.find?_eq_none.1 hg _ h
  | some v => rw [eq_of_mem_entries (mem_entries_of_get? hg) h]

/-- Two dictionaries with the same lookups are the same dictionary. -/
theorem ext_get? {a b : Dictionary κ β} (h : ∀ key, a.get? key = b.get? key) : a = b := by
  have hirrefl : Std.Irrefl fun a b : κ × β => a.1 < b.1 := ⟨fun a => KeyOrder.irrefl a.1⟩
  have hantisymm : Std.Antisymm fun a b : κ × β => a.1 < b.1 :=
    ⟨fun a b hab hba => absurd (KeyOrder.trans hab hba) (KeyOrder.irrefl a.1)⟩
  have hentries : a.entries = b.entries := by
    refine List.Pairwise.eq_of_mem_iff a.ascending b.ascending fun ⟨key, value⟩ => ?_
    rw [← get?_eq_some_iff, ← get?_eq_some_iff, h]
  cases a
  cases b
  cases hentries
  rfl

theorem get?_insert (d : Dictionary κ β) (key key' : κ) (value : β) :
    (d.insert key value).get? key' = if key = key' then some value else d.get? key' := by
  split
  · next h => rw [← h, get?_insert_self]
  · next h => exact get?_insert_ne d value h

theorem contains_eq_true_iff {d : Dictionary κ β} {key : κ} :
    d.contains key = true ↔ ∃ value, d.get? key = some value := by
  rw [contains, Option.isSome_iff_exists]

theorem ofList_concat (l : List (κ × β)) (e : κ × β) :
    ofList (l ++ [e]) = (ofList l).insert e.1 e.2 := by
  rw [ofList, List.foldl_append]
  rfl

/-- Of several pairs with one key the last one is found. -/
theorem get?_ofList (l : List (κ × β)) (key : κ) :
    (ofList l).get? key = (l.reverse.find? fun e => e.1 = key).map (·.2) := by
  induction l using List.reverseRecOn with
  | nil => rfl
  | append_singleton l e ih =>
    rw [ofList_concat, get?_insert, List.reverse_concat, List.find?_cons]
    by_cases h : e.1 = key
    · simp [h]
    · simp [h, ih]

theorem get?_ofList_cons (e : κ × β) (l : List (κ × β)) (key : κ) :
    (ofList (e :: l)).get? key
      = ((ofList l).get? key).or (if e.1 = key then some e.2 else none) := by
  rw [get?_ofList, get?_ofList, List.reverse_cons, List.find?_append, List.find?_singleton,
    Option.map_or]
  by_cases h : e.1 = key <;> simp [h]

/-- Listing the entries of a dictionary in order gives it back. -/
theorem ofList_entries (d : Dictionary κ β) : ofList d.entries = d := by
  apply ext_get?
  intro key
  rw [get?_ofList]
  cases h : d.entries.reverse.find? fun e => e.1 = key with
  | none =>
    cases hg : d.get? key with
    | none => rfl
    | some v =>
      have hmem := get?_eq_some_iff.1 hg
      simpa using List.find?_eq_none.1 h _ (List.mem_reverse.2 hmem)
  | some e =>
    have hk : e.1 = key := by simpa using List.find?_some h
    subst hk
    exact (get?_eq_some_iff.2 (List.mem_reverse.1 (List.mem_of_find?_eq_some h))).symm

/-- A list in strict order is listed as it is. -/
theorem ofList_of_ascending {l : List (κ × β)} (h : l.Pairwise fun a b => a.1 < b.1) :
    (ofList l).entries = l := by
  rw [ofList_entries ⟨l, h⟩]

end BranchingDialogue.Dictionary
