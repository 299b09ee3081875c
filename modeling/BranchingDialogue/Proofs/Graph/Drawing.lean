import BranchingDialogue.Graph.Dot
import Mathlib.Data.List.Basic

/-!
# Reading a drawing back

A drawing is a text in which names that an author chose stand in quotes. `Dot.read?` reads such a text
knowing the language only: words, marks, and texts in quotes, where a backslash and the character after
it are a pair and the first quote outside a pair ends the text. The reader is a machine that takes one
character at a time, so what it finds in a text is put together from what it finds in parts of it
(`Dot.scan_trans`).

Whatever the author wrote, the reader passes through a label without coming to its end
(`scan_label`), so every statement is read as it was meant and no more are found (`read?_dot`). Main
result: `dot_unbroken`.
-/

namespace BranchingDialogue

namespace Dot

/-! ## The language -/

/-- What a text in the language is made of. -/
inductive Lexeme where
  /-- A word or a number. -/
  | word (s : String)
  /-- A text in quotes, as it is written between them. -/
  | quoted (s : String)
  /-- Any other character. -/
  | mark (c : Char)
  deriving DecidableEq, Repr

/-- Where a reader is, with what it has read of the lexeme that it is in. -/
inductive Mode where
  | outside
  | word (read : List Char)
  | string (read : List Char)
  /-- In a string after the backslash of a pair. -/
  | pair (read : List Char)
  deriving DecidableEq

/-- Whether a character may stand in a word. -/
def isWordChar (c : Char) : Bool := c.isAlphanum || c == '_'

/-- Takes a character that begins something. -/
def begin (c : Char) : Mode × List Lexeme :=
  if c = '"' then (.string [], [])
  else if isWordChar c then (.word [c], [])
  else if c.isWhitespace then (.outside, [])
  else (.outside, [.mark c])

/-- Takes a character; with the lexemes that are complete by then. -/
def step : Mode → Char → Mode × List Lexeme
  | .outside, c => begin c
  | .word read, c =>
    if isWordChar c then (.word (read ++ [c]), [])
    else ((begin c).1, .word (String.ofList read) :: (begin c).2)
  | .string read, c =>
    if c = '"' then (.outside, [.quoted (String.ofList read)])
    else if c = '\\' then (.pair read, [])
    else (.string (read ++ [c]), [])
  | .pair read, c => (.string (read ++ ['\\', c]), [])

/-- Takes characters one after the other. -/
def scan (m : Mode) : List Char → Mode × List Lexeme
  | [] => (m, [])
  | c :: cs => ((scan (step m c).1 cs).1, (step m c).2 ++ (scan (step m c).1 cs).2)

/-- The lexemes of a text; none if a string in it is not closed. -/
def lexemes? (s : String) : Option (List Lexeme) :=
  match scan .outside s.toList with
  | (.outside, ts) => some ts
  | (.word read, ts) => some (ts ++ [.word (String.ofList read)])
  | (.string _, _) | (.pair _, _) => none

/-- The statements up to a closing brace at the end, each of which a semicolon ends. -/
def statements? (read : List Lexeme) : List Lexeme → Option (List (List Lexeme))
  | [] => none
  | t :: ts =>
    if t = .mark ';' then (statements? [] ts).map (read :: ·)
    else if t = .mark '\x7d' then if read = [] ∧ ts = [] then some [] else none
    else statements? (read ++ [t]) ts

/-- The name and the statements of a drawing. -/
def read? (s : String) : Option (String × List (List Lexeme)) :=
  match lexemes? s with
  | some (.word keyword :: .word name :: .mark '\x7b' :: ts) =>
    if keyword = "digraph" then (statements? [] ts).map (name, ·) else none
  | _ => none

/-- Undoes the pairs for a backslash and for a quote. -/
def unpair : List Char → List Char
  | [] => []
  | [c] => [c]
  | c :: d :: cs =>
    if c = '\\' ∧ (d = '\\' ∨ d = '"') then d :: unpair cs else c :: unpair (d :: cs)

/-! ## Reading in parts -/

section Scan

variable {m m' m'' : Mode} {cs ds read : List Char} {ts us : List Lexeme}

theorem scan_append (m : Mode) (cs ds : List Char) :
    scan m (cs ++ ds)
      = ((scan (scan m cs).1 ds).1, (scan m cs).2 ++ (scan (scan m cs).1 ds).2) := by
  induction cs generalizing m with
  | nil => rfl
  | cons c cs ih =>
    rw [List.cons_append, scan, ih, scan]
    simp only [List.append_assoc]

/-- What is found in two parts of a text, the second one read from where the first one ends. -/
theorem scan_trans (h : scan m cs = (m', ts)) (h' : scan m' ds = (m'', us)) :
    scan m (cs ++ ds) = (m'', ts ++ us) := by
  rw [scan_append, h]
  simp only [h']

theorem scan_wordChars (h : ∀ c ∈ cs, isWordChar c) (read : List Char) :
    scan (.word read) cs = (.word (read ++ cs), []) := by
  induction cs generalizing read with
  | nil => rw [scan, List.append_nil]
  | cons c cs ih =>
    rw [List.forall_mem_cons] at h
    have hstep : step (.word read) c = (.word (read ++ [c]), []) := if_pos h.1
    rw [scan, hstep, ih h.2]
    simp

/-- Characters that are no quotes and no backslashes stand for themselves in a string. -/
theorem scan_plain (h : ∀ c ∈ cs, c ≠ '"' ∧ c ≠ '\\') (read : List Char) :
    scan (.string read) cs = (.string (read ++ cs), []) := by
  induction cs generalizing read with
  | nil => rw [scan, List.append_nil]
  | cons c cs ih =>
    rw [List.forall_mem_cons] at h
    have hstep : step (.string read) c = (.string (read ++ [c]), []) := by
      rw [step, if_neg h.1.1, if_neg h.1.2]
    rw [scan, hstep, ih h.2]
    simp

/-- What is read of a text whose parts are each read from outside to outside. -/
theorem scan_flatMap {α : Type} {f : α → List Char} {g : α → List Lexeme} {xs : List α}
    (h : ∀ x ∈ xs, scan .outside (f x) = (.outside, g x)) :
    scan .outside (xs.flatMap f) = (.outside, xs.flatMap g) := by
  induction xs with
  | nil => rfl
  | cons x xs ih =>
    rw [List.forall_mem_cons] at h
    rw [List.flatMap_cons, List.flatMap_cons]
    exact scan_trans h.1 (ih h.2)

end Scan

/-! ## Statements -/

/-- No lexeme of a statement ends it. -/
def IsStatement (ts : List Lexeme) : Prop := ∀ t ∈ ts, t ≠ .mark ';' ∧ t ≠ .mark '\x7d'

theorem statements?_append {statement : List Lexeme} (h : IsStatement statement)
    (read ts : List Lexeme) :
    statements? read (statement ++ .mark ';' :: ts)
      = (statements? [] ts).map ((read ++ statement) :: ·) := by
  induction statement generalizing read with
  | nil => rw [List.nil_append, statements?, if_pos rfl, List.append_nil]
  | cons t statement ih =>
    obtain ⟨hhead, hrest⟩ := List.forall_mem_cons.1 h
    rw [List.cons_append, statements?, if_neg hhead.1, if_neg hhead.2, ih hrest,
      List.append_assoc, List.singleton_append]

/-- Statements are told apart by their semicolons. -/
theorem statements?_flatMap {statements : List (List Lexeme)}
    (h : ∀ statement ∈ statements, IsStatement statement) :
    statements? [] (statements.flatMap (· ++ [.mark ';']) ++ [.mark '\x7d']) = some statements := by
  induction statements with
  | nil => rfl
  | cons statement statements ih =>
    rw [List.forall_mem_cons] at h
    rw [List.flatMap_cons, List.append_assoc, List.append_assoc, List.singleton_append,
      statements?_append h.1, ih h.2]
    rfl

end Dot

/-! ## Labels -/

namespace Graph

open Dot

/-- Puts a backslash in front of every occurrence of a character. -/
def guarded (c : Char) (cs : List Char) : List Char :=
  cs.flatMap fun d => if d = c then ['\\', d] else [d]

/-- In a label backslashes are guarded first, and then quotes. -/
theorem flatMap_labelChar (cs : List Char) :
    cs.flatMap labelChar = guarded '"' (guarded '\\' cs) := by
  rw [guarded, guarded, List.flatMap_assoc]
  refine List.flatMap_congr fun c _ => ?_
  rw [labelChar]
  split
  · next hc => simp [hc]
  · next hc =>
    rw [List.flatMap_singleton]
    split
    · next hquote => rw [hquote]
    · rfl

/-- **Guarded characters keep a reader inside the string.** -/
theorem scan_labelChars (cs read : List Char) :
    scan (.string read) (cs.flatMap labelChar) = (.string (read ++ cs.flatMap labelChar), []) := by
  induction cs generalizing read with
  | nil => rw [List.flatMap_nil, List.append_nil]; rfl
  | cons c cs ih =>
    have hchar : scan (.string read) (labelChar c) = (.string (read ++ labelChar c), []) := by
      rw [labelChar]
      split
      · rfl
      · next hbackslash =>
        split
        · rfl
        · next hquote =>
          refine scan_plain (fun d hd => ?_) read
          rw [List.mem_singleton.1 hd]
          exact ⟨hquote, hbackslash⟩
    rw [List.flatMap_cons, ← List.append_assoc]
    exact scan_trans hchar (ih _)

theorem unpair_cons {c : Char} (h : c ≠ '\\') (cs : List Char) :
    unpair (c :: cs) = c :: unpair cs := by
  cases cs with
  | nil => rfl
  | cons d cs => rw [unpair, if_neg fun hpair => h hpair.1]

/-- **Undoing the pairs gives the text back.** -/
theorem unpair_labelChars (cs : List Char) : unpair (cs.flatMap labelChar) = cs := by
  induction cs with
  | nil => rfl
  | cons c cs ih =>
    rw [List.flatMap_cons, labelChar]
    split
    · next hbackslash =>
      rw [hbackslash, List.cons_append, List.singleton_append, unpair, if_pos (by simp), ih]
    · next hbackslash =>
      split
      · next hquote =>
        rw [hquote, List.cons_append, List.singleton_append, unpair, if_pos (by simp), ih]
      · rw [List.singleton_append, unpair_cons hbackslash, ih]

theorem name_plain (kind : NodeKind) : ∀ c ∈ kind.name.toList, c ≠ '"' ∧ c ≠ '\\' := by
  have hall : kind.name.toList.all (fun c => c != '"' && c != '\\') := by cases kind <;> rfl
  simpa using hall

/-- A label is the kind of the node and, after an escaped line break, its detail with pairs. -/
theorem toList_label (n : Node) :
    (label n).toList = n.kind.name.toList
      ++ ((detail? n).map fun d => '\\' :: 'n' :: d.toList.flatMap labelChar).getD [] := by
  rw [label]
  cases detail? n with
  | none => simp
  | some d =>
    simp only [String.toList_append, labelText, String.toList_ofList, List.append_assoc]
    rfl

/-- **No quote in a label ends it**, so it ends at the quote after it. -/
theorem scan_label (n : Node) :
    scan (.string []) (label n).toList = (.string (label n).toList, []) := by
  have hname := scan_plain (name_plain n.kind) []
  rw [toList_label]
  cases detail? n with
  | none => simpa using hname
  | some d =>
    have hbreak : scan (.string n.kind.name.toList) ['\\', 'n']
        = (.string (n.kind.name.toList ++ ['\\', 'n']), []) := rfl
    have hdetail := scan_labelChars d.toList (n.kind.name.toList ++ ['\\', 'n'])
    simpa using scan_trans (scan_trans hname hbreak) hdetail

/-! ## Statements of a graph -/

variable {g : Graph}

/-- What a node is called in a drawing. -/
def drawnName (i : Nat) : String := "n" ++ toString i

/-- The statement for a node as it is read. -/
def nodeLexemes (reachable entries : List Nat) (i : Nat) (n : Node) : List Lexeme :=
  [.word (drawnName i), .mark '[', .word "label", .mark '=', .quoted (label n),
    .word "shape", .mark '=', .word (shape n.kind),
    .word "color", .mark '=', .word (color reachable entries i), .mark ']']

/-- The statement for an edge as it is read. -/
def edgeLexemes (g : Graph) (e : Edge) : List Lexeme :=
  [.word (drawnName e.output.node), .mark '-', .mark '>', .word (drawnName e.input.node), .mark '[',
    .word "style", .mark '=', .word (if g.carriesData e then "dashed" else "solid"),
    .word "label", .mark '=', .quoted (toString e.output.number), .mark ']']

/-- The statements before those for nodes, as they are read. -/
def defaultLexemes : List (List Lexeme) :=
  [[.word "rankdir", .mark '=', .word "LR"],
    [.word "node", .mark '[', .word "shape", .mark '=', .word "box", .mark ']']]

theorem isWordChar_toString (i : Nat) : ∀ c ∈ (toString i).toList, isWordChar c := by
  intro c hc
  have hdigits : (toString i).toList = Nat.toDigits 10 i := Nat.toList_repr
  rw [hdigits] at hc
  have hdigit : c.isDigit = true := Nat.isDigit_of_mem_toDigits (by decide) (by decide) hc
  simp [isWordChar, Char.isAlphanum, hdigit]

/-- Numbers have no quotes and no backslashes. -/
theorem number_plain (k : Int) : ∀ c ∈ (toString k).toList, c ≠ '"' ∧ c ≠ '\\' := by
  intro c hc
  have hword : isWordChar c ∨ c = '-' := by
    cases k with
    | ofNat i => exact .inl (isWordChar_toString i c hc)
    | negSucc i =>
      have htext : (toString (Int.negSucc i)).toList = '-' :: (toString (i + 1)).toList := by
        rw [← List.singleton_append, ← String.toList_ofList (l := ['-']), ← String.toList_append]
        rfl
      rw [htext, List.mem_cons] at hc
      exact hc.symm.imp_left (isWordChar_toString (i + 1) c)
  have hneither : ¬(isWordChar '"' ∨ '"' = '-') ∧ ¬(isWordChar '\\' ∨ '\\' = '-') := by decide
  exact ⟨fun hc => hneither.1 (hc ▸ hword), fun hc => hneither.2 (hc ▸ hword)⟩

/-- The number of a node belongs to its name. -/
theorem scan_number (i : Nat) :
    scan (.word ['n']) (toString i).toList = (.word (drawnName i).toList, []) := by
  have hname : (drawnName i).toList = ['n'] ++ (toString i).toList := String.toList_append
  rw [scan_wordChars (isWordChar_toString i), hname]

theorem scan_nodeStatement (reachable entries : List Nat) (i : Nat) (n : Node) :
    scan .outside (nodeStatement reachable entries i n).toList
      = (.outside, nodeLexemes reachable entries i n ++ [.mark ';']) := by
  have hname : scan .outside "    n".toList = (.word ['n'], []) := rfl
  have hopening (read : List Char) : scan (.word read) " [label=\"".toList
      = (.string [], [.word (String.ofList read), .mark '[', .word "label", .mark '=']) := rfl
  have hclosing (read : List Char) : scan (.string read) "\" shape=".toList
      = (.outside, [.quoted (String.ofList read), .word "shape", .mark '=']) := rfl
  have hshape : scan .outside (shape n.kind).toList = (.word (shape n.kind).toList, []) := by
    cases n.kind <;> rfl
  have hbetween (read : List Char) : scan (.word read) " color=".toList
      = (.outside, [.word (String.ofList read), .word "color", .mark '=']) := rfl
  have hcolor : scan .outside (color reachable entries i).toList
      = (.word (color reachable entries i).toList, []) := by
    rw [color]
    split
    · rfl
    · split <;> rfl
  have hend (read : List Char) : scan (.word read) "];\n".toList
      = (.outside, [.word (String.ofList read), .mark ']', .mark ';']) := rfl
  simp only [nodeStatement, String.toList_append, scan_append, hname, scan_number, hopening,
    scan_label, hclosing, hshape, hbetween, hcolor, hend, String.ofList_toList]
  rfl

theorem scan_edgeStatement (g : Graph) (e : Edge) :
    scan .outside (g.edgeStatement e).toList = (.outside, g.edgeLexemes e ++ [.mark ';']) := by
  have hname : scan .outside "    n".toList = (.word ['n'], []) := rfl
  have harrow (read : List Char) : scan (.word read) " -> n".toList
      = (.word ['n'], [.word (String.ofList read), .mark '-', .mark '>']) := rfl
  have hstyle (read : List Char) : scan (.word read) " [style=".toList
      = (.outside, [.word (String.ofList read), .mark '[', .word "style", .mark '=']) := rfl
  have hline : scan .outside (if g.carriesData e then "dashed" else "solid").toList
      = (.word (if g.carriesData e then "dashed" else "solid").toList, []) := by
    split <;> rfl
  have hopening (read : List Char) : scan (.word read) " label=\"".toList
      = (.string [], [.word (String.ofList read), .word "label", .mark '=']) := rfl
  have hport : scan (.string []) (toString e.output.number).toList
      = (.string (toString e.output.number).toList, []) := scan_plain (number_plain _) []
  have hend (read : List Char) : scan (.string read) "\"];\n".toList
      = (.outside, [.quoted (String.ofList read), .mark ']', .mark ';']) := rfl
  simp only [edgeStatement, String.toList_append, scan_append, hname, scan_number, harrow, hstyle,
    hline, hopening, hport, hend, String.ofList_toList]
  rfl

/-! ## The drawing -/

/-- All statements of a drawing as they are read. -/
def drawnLexemes (g : Graph) : List (List Lexeme) :=
  defaultLexemes ++ g.nodes.toList.mapIdx (nodeLexemes g.reachable g.entries.values)
    ++ g.edges.toList.map g.edgeLexemes

theorem isStatement_of_mem {statement : List Lexeme} (h : statement ∈ g.drawnLexemes) :
    IsStatement statement := by
  simp only [drawnLexemes, List.mem_append, List.mem_mapIdx, List.mem_map] at h
  rcases h with (h | ⟨i, hi, rfl⟩) | ⟨e, he, rfl⟩
  · have hplain : ∀ ts ∈ defaultLexemes, ∀ t ∈ ts, t ≠ .mark ';' ∧ t ≠ .mark '\x7d' := by decide
    exact hplain statement h
  · simp [IsStatement, nodeLexemes]
  · simp [IsStatement, edgeLexemes]

theorem scan_dot (g : Graph) :
    scan .outside g.dot.toList
      = (.outside, .word "digraph" :: .word "DialogueGraph" :: .mark '\x7b'
          :: (g.drawnLexemes.flatMap (· ++ [.mark ';']) ++ [.mark '\x7d'])) := by
  have hheader : scan .outside dotHeader.toList
      = (.outside, .word "digraph" :: .word "DialogueGraph" :: .mark '\x7b'
          :: defaultLexemes.flatMap (· ++ [.mark ';'])) := by decide
  have hnodes : scan .outside
        (String.join (g.nodes.toList.mapIdx (nodeStatement g.reachable g.entries.values))).toList
      = (.outside, (g.nodes.toList.mapIdx (nodeLexemes g.reachable g.entries.values)).flatMap
          (· ++ [.mark ';'])) := by
    rw [String.toList_join, List.mapIdx_eq_zipIdx_map, List.mapIdx_eq_zipIdx_map, List.flatMap_map,
      List.flatMap_map]
    exact scan_flatMap fun p _ => scan_nodeStatement _ _ p.2 p.1
  have hedges : scan .outside (String.join (g.edges.toList.map g.edgeStatement)).toList
      = (.outside, (g.edges.toList.map g.edgeLexemes).flatMap (· ++ [.mark ';'])) := by
    rw [String.toList_join, List.flatMap_map, List.flatMap_map]
    exact scan_flatMap fun e _ => scan_edgeStatement g e
  have hbreak : scan .outside "\n".toList = (.outside, []) := rfl
  have hend : scan .outside "\x7d\n".toList = (.outside, [.mark '\x7d']) := rfl
  simp only [dot, drawnLexemes, String.toList_append, scan_append, hheader, hnodes, hbreak, hedges,
    hend, List.flatMap_append, List.append_assoc, List.nil_append, List.cons_append]

/-- A reader finds the statements of the graph, and no others. -/
theorem read?_dot (g : Graph) : Dot.read? g.dot = some ("DialogueGraph", g.drawnLexemes) := by
  rw [read?, lexemes?, scan_dot]
  simp only [if_true, statements?_flatMap fun _ h => isStatement_of_mem h]
  rfl

/-- What is written of a node: the name of its kind and, if there is a detail, an escaped line break
and the detail with backslashes and then quotes guarded, which undoing the pairs gives back. -/
inductive Spells (n : Node) : List Char → Prop
  | kind (noDetail : detail? n = none) : Spells n n.kind.name.toList
  | detail {d : String} {body : List Char} (detail : detail? n = some d)
      (guards : body = guarded '"' (guarded '\\' d.toList)) (undone : unpair body = d.toList) :
      Spells n (n.kind.name.toList ++ '\\' :: 'n' :: body)

theorem spells_label (n : Node) : Spells n (label n).toList := by
  rw [toList_label]
  cases hdetail : detail? n with
  | none =>
    rw [Option.map_none, Option.getD_none, List.append_nil]
    exact .kind hdetail
  | some d => exact .detail hdetail (flatMap_labelChar d.toList) (unpair_labelChars d.toList)

/-- The statement for a node opens a string right before the label, which ends at the quote right after
it. -/
structure Quotes (statement : String) (n : Node) : Prop where
  string : ∃ front back, statement = front ++ label n ++ "\"" ++ back
    ∧ (scan .outside front.toList).1 = .string []
  /-- No quote in the label ends the string. -/
  inside : scan (.string []) (label n).toList = (.string (label n).toList, [])
  spells : Spells n (label n).toList

theorem quotes_nodeStatement (reachable entries : List Nat) (i : Nat) (n : Node) :
    Quotes (nodeStatement reachable entries i n) n where
  string := by
    have hname : scan .outside "    n".toList = (.word ['n'], []) := rfl
    have hopening (read : List Char) : (scan (.word read) " [label=\"".toList).1 = .string [] := rfl
    refine ⟨"    n" ++ toString i ++ " [label=\"",
      " shape=" ++ shape n.kind ++ " color=" ++ color reachable entries i ++ "];\n", ?_, ?_⟩
    · rw [← String.toList_inj]
      simp [nodeStatement]
    · simp only [String.toList_append, scan_append, hname, scan_number, hopening]
  inside := scan_label n
  spells := spells_label n

/-- **No text of an author breaks a drawing.** It is the header, a statement for each node, a statement
for each edge, both in order, and the closing brace. That is also what a reader of the language finds in
it: in the statement for a node the label ends at the quote that was written after it, and what stands
in it is the name of the kind and the detail, from which only pairs have to be undone. -/
theorem dot_unbroken (g : Graph) :
    g.dot = dotHeader
        ++ String.join (g.nodes.toList.mapIdx (nodeStatement g.reachable g.entries.values)) ++ "\n"
        ++ String.join (g.edges.toList.map g.edgeStatement) ++ "\x7d\n"
      ∧ Dot.read? g.dot = some ("DialogueGraph", defaultLexemes
          ++ g.nodes.toList.mapIdx (nodeLexemes g.reachable g.entries.values)
          ++ g.edges.toList.map g.edgeLexemes)
      ∧ ∀ i n, Quotes (nodeStatement g.reachable g.entries.values i n) n :=
  ⟨rfl, read?_dot g, fun i n => quotes_nodeStatement _ _ i n⟩

/-- A marker whose name is written like the end of a statement and a further one. -/
example :
    label (.new ⟨0⟩ .marker (({} : Payload).insert "marker" (.text "\"]; n9 [label=\"\\")))
      = "Marker\\n\\\"]; n9 [label=\\\"\\\\" := by
  decide +kernel

end Graph

end BranchingDialogue
