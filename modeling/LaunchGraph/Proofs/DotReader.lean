import LaunchGraph.Proofs.Names

/-!
# Reading drawings

A drawing can be read back from its text, part by part: a word ends where a character comes
that belongs to no word, a label ends at the first quotation mark or record mark that no
backslash stands before, and a block of statements ends at its closing line.
-/

namespace LaunchGraph

namespace Dot

/-!
## Readers
-/

/-- A reader takes what it reads off the front of a text. -/
abbrev Reader (α : Type) := StateT (List Char) Option α

namespace Reader

def literal (text : String) : Reader Unit := fun l => (l.dropPrefix? text.toList).map ((), ·)

def optional (text : String) : Reader Bool := fun l =>
  match l.dropPrefix? text.toList with
  | some rest => some (true, rest)
  | none => some (false, l)

def word : Reader String := fun l =>
  some (String.ofList (l.takeWhile isWordChar), l.dropWhile isWordChar)

def stateName : Reader State := fun l => do
  let (name, rest) ← word l
  let state ← State.ofName? name
  return (state, rest)

/-- What comes before the first special character that no backslash stands before.  Backslashes
before special characters are left out. -/
def unescape (special : Char -> Bool) : List Char -> Option (List Char × List Char)
  | [] => none
  | '\\' :: c :: rest =>
      if special c then (unescape special rest).map fun p => (c :: p.1, p.2)
      else (unescape special (c :: rest)).map fun p => ('\\' :: p.1, p.2)
  | c :: rest =>
      if special c then some ([], c :: rest)
      else (unescape special rest).map fun p => (c :: p.1, p.2)

def escaped (special : Char -> Bool) : Reader (List Char) := unescape special

/-- What comes before the first closing text that stands where an item would start.  No item is
without a text of its own. -/
def itemsUntil {α : Type} (stop : String) (item : Reader α) (l : List Char) :
    Option (List α × List Char) :=
  match l.dropPrefix? stop.toList with
  | some rest => some ([], rest)
  | none =>
      match item l with
      | some (a, rest) =>
          if rest.length < l.length then
            (itemsUntil stop item rest).map fun p => (a :: p.1, p.2)
          else none
      | none => none
termination_by l.length

def manyUntil {α : Type} (stop : String) (item : Reader α) : Reader (List α) :=
  itemsUntil stop item

/-!
## Statements
-/

def cell : Reader State := do
  literal "<"
  let state ← stateName
  literal "> "
  literal state.name
  return state

def label : Reader (String × List State) := do
  let isRecord ← optional "\x7b "
  if isRecord then do
    -- A blank stands between the title and the mark that ends it.
    let title ← escaped isRecordMark
    literal "| \x7b "
    let first ← cell
    let others ← manyUntil " \x7d \x7d" (do literal " | "; cell)
    return (String.ofList title.dropLast, first :: others)
  else do
    let title ← escaped isQuote
    return (String.ofList title, [])

def node : Reader NodeStatement := do
  literal "  "
  let id ← word
  literal " [label=\""
  let (title, cells) ← label
  literal "\" shape="
  literal (if cells.isEmpty then "box" else "record")
  let isInitial ← optional " style=filled fillcolor=red"
  let isOwner ← optional " peripheries=2"
  literal "]\n"
  return { id, title, cells, isInitial, isOwner }

def edge : Reader EdgeStatement := do
  literal "  "
  let source ← word
  let fromCell ← optional ":"
  if fromCell then do
    let state ← stateName
    literal " -> "
    let target ← word
    let isDotted ← optional " [style=dotted]"
    literal "\n"
    return { source, target, state, fromCell, isFlow := !isDotted }
  else do
    literal " -> "
    let target ← word
    literal " [label=\""
    let state ← stateName
    literal "\""
    let isDotted ← optional " style=dotted"
    literal "]\n"
    return { source, target, state, fromCell, isFlow := !isDotted }

def rankdir : Reader (Option String) := do
  let isSet ← optional "  rankdir="
  if isSet then do
    let rankdir ← word
    literal "\n"
    return some rankdir
  else
    return none

def drawing : Reader Drawing := do
  literal "digraph \x7b\n"
  let rankdir ← rankdir
  literal "\n"
  let nodes ← manyUntil "\n" node
  let edges ← manyUntil "\x7d\n" edge
  return { rankdir, nodes, edges }

end Reader

def read? (text : String) : Option Drawing :=
  match Reader.drawing.run text.toList with
  | some (d, []) => some d
  | _ => none

/-!
## What readers make of texts
-/

def Reads {α : Type} (p : Reader α) (text : String) (a : α) (rest : List Char) : Prop :=
  p.run (text.toList ++ rest) = some (a, rest)

def Breaks (rest : List Char) : Prop := rest.head?.all (fun c => !isWordChar c) = true

theorem dropPrefix?_append (text : String) (rest : List Char) :
    (text.toList ++ rest).dropPrefix? text.toList = some rest :=
  List.dropPrefix?_append_of_beq rest (by simp)

namespace Reads

variable {α β : Type} {rest : List Char}

theorem pure (a : α) : Reads (Pure.pure a) "" a rest := rfl

theorem bind {p : Reader α} {f : α -> Reader β} {s t : String} {a : α} {b : β}
    (hp : Reads p s a (t.toList ++ rest)) (hf : Reads (f a) t b rest) :
    Reads (p >>= f) (s ++ t) b rest := by
  have hp' : p.run (s.toList ++ (t.toList ++ rest)) = some (a, t.toList ++ rest) := hp
  have hf' : (f a).run (t.toList ++ rest) = some (b, rest) := hf
  rw [Reads, String.toList_append, List.append_assoc, StateT.run_bind, hp']
  exact hf'

theorem literal (text : String) : Reads (Reader.literal text) text () rest := by
  show ((text.toList ++ rest).dropPrefix? text.toList).map (fun l => ((), l)) = _
  rw [dropPrefix?_append]
  rfl

theorem optional (text : String) : Reads (Reader.optional text) text true rest := by
  rw [Reads, StateT.run, Reader.optional, dropPrefix?_append]

theorem optional_none {text : String} (h : rest.dropPrefix? text.toList = none) :
    Reads (Reader.optional text) "" false rest := by
  show Reader.optional text rest = _
  rw [Reader.optional, h]

theorem flag {text : String} (b : Bool) (h : rest.dropPrefix? text.toList = none) :
    Reads (Reader.optional text) (if b then text else "") b rest := by
  cases b with
  | true => exact optional text
  | false => exact optional_none h

theorem word {text : String} (htext : IsWord text) (hrest : Breaks rest) :
    Reads Reader.word text text rest := by
  have hall := List.all_eq_true.mp htext
  have hstop : rest.takeWhile isWordChar = [] ∧ rest.dropWhile isWordChar = rest := by
    cases rest with
    | nil => exact ⟨rfl, rfl⟩
    | cons c rest =>
        have hc : isWordChar c = false := by simpa [Breaks] using hrest
        constructor
        · rw [List.takeWhile_cons_of_neg (by simp [hc])]
        · rw [List.dropWhile_cons_of_neg (by simp [hc])]
  show some (_, _) = some (_, _)
  rw [List.takeWhile_append_of_pos hall, List.dropWhile_append_of_pos hall, hstop.left,
    hstop.right, List.append_nil, String.ofList_toList]

theorem stateName (s : State) (hrest : Breaks rest) :
    Reads Reader.stateName s.name s rest := by
  have hword : Reader.word (s.name.toList ++ rest) = some (s.name, rest) :=
    word (isWord_name s) hrest
  show Reader.stateName (s.name.toList ++ rest) = _
  rw [Reader.stateName, hword]
  show (State.ofName? s.name >>= fun state => some (state, rest)) = _
  rw [State.ofName?_name]
  rfl

theorem manyUntil {p : Reader α} {stop : String} {text : α -> String} {items : List α}
    (hitem : forall a, a ∈ items -> forall rest, Reads p (text a) a rest)
    (hgoesOn : forall a, a ∈ items -> forall rest,
      ((text a).toList ++ rest).dropPrefix? stop.toList = none) :
    Reads (Reader.manyUntil stop p) (String.join (items.map text) ++ stop) items rest := by
  induction items with
  | nil =>
      show Reader.itemsUntil stop p ((String.join [] ++ stop).toList ++ rest) = some ([], rest)
      rw [String.join_nil, String.empty_append, Reader.itemsUntil, dropPrefix?_append]
  | cons a items ih =>
      have hfirst := List.mem_cons_self (a := a) (l := items)
      have hrest : Reader.itemsUntil stop p
          ((String.join (items.map text) ++ stop).toList ++ rest) = some (items, rest) :=
        ih (fun b hb => hitem b (List.mem_cons_of_mem _ hb))
          (fun b hb => hgoesOn b (List.mem_cons_of_mem _ hb))
      have hnonempty : 0 < (text a).toList.length := by
        refine List.length_pos_iff.mpr fun hnil => ?_
        have hnone := hgoesOn a hfirst (stop.toList ++ rest)
        rw [hnil, List.nil_append, dropPrefix?_append] at hnone
        cases hnone
      have hread : p ((text a).toList ++ ((String.join (items.map text) ++ stop).toList ++ rest))
          = some (a, (String.join (items.map text) ++ stop).toList ++ rest) := hitem a hfirst _
      show Reader.itemsUntil stop p
        ((String.join ((a :: items).map text) ++ stop).toList ++ rest) = some (a :: items, rest)
      rw [List.map_cons, String.join_cons, String.append_assoc, String.toList_append,
        List.append_assoc, Reader.itemsUntil, hgoesOn a hfirst, hread]
      dsimp only
      rw [if_pos, hrest, Option.map_some]
      simp only [List.length_append]
      omega

end Reads

/-!
## Labels
-/

section Unescape

variable {special : Char -> Bool} {c : Char} {rest : List Char}

theorem unescape_special (h : special c = true) (hne : c ≠ '\\') :
    Reader.unescape special (c :: rest) = some ([], c :: rest) := by
  rw [Reader.unescape, if_pos h]
  rintro _ _ rfl
  exact absurd rfl hne

theorem unescape_plain (h : special c = false) (hne : c ≠ '\\') :
    Reader.unescape special (c :: rest)
      = (Reader.unescape special rest).map fun p => (c :: p.1, p.2) := by
  rw [Reader.unescape, if_neg (Bool.eq_false_iff.mp h)]
  rintro _ _ rfl
  exact absurd rfl hne

theorem exists_plain_head (hbackslash : special '\\' = false) (c : Char) (text rest : List Char) :
    exists x l, (c :: text).flatMap (fun c => if special c then ['\\', c] else [c]) ++ rest = x :: l ∧
      special x = false := by
  rw [List.flatMap_cons]
  by_cases hc : special c = true
  · exact ⟨'\\', _, by rw [if_pos hc]; rfl, hbackslash⟩
  · exact ⟨c, _, by rw [if_neg hc]; rfl, Bool.eq_false_iff.mpr hc⟩

/-- What comes before a mark is read as it was before it was escaped, if it does not end in a
backslash, and the mark is found. -/
theorem unescape_escape (hbackslash : special '\\' = false) {mark : Char}
    (hmark : special mark = true) {text : List Char} (hlast : text.getLast? ≠ some '\\') :
    Reader.unescape special (text.flatMap (fun c => if special c then ['\\', c] else [c])
      ++ mark :: rest) = some (text, mark :: rest) := by
  have hne : forall {c}, special c = true -> c ≠ '\\' := by
    rintro c hc rfl
    rw [hbackslash] at hc
    cases hc
  induction text with
  | nil => exact unescape_special hmark (hne hmark)
  | cons c text ih =>
      have htext : text.getLast? ≠ some '\\' := by
        cases text with
        | nil => simp
        | cons d text => simpa using hlast
      rw [List.flatMap_cons, List.append_assoc]
      by_cases hc : special c = true
      · rw [if_pos hc, List.cons_append, List.cons_append, List.nil_append, Reader.unescape,
          if_pos hc, ih htext]
        rfl
      · rw [if_neg hc, List.cons_append, List.nil_append]
        have hplain := Bool.eq_false_iff.mpr hc
        by_cases hslash : c = '\\'
        · -- What follows a backslash of the text itself is no special character.
          cases text with
          | nil => exact absurd (by rw [hslash]; rfl) hlast
          | cons d text =>
              rcases exists_plain_head hbackslash d text (mark :: rest) with ⟨x, l, heq, hx⟩
              have hread := ih htext
              rw [heq] at hread ⊢
              rw [hslash, Reader.unescape, if_neg (Bool.eq_false_iff.mp hx), hread]
              rfl
        · rw [unescape_plain hplain hslash, ih htext]
          rfl

end Unescape

theorem Reads.escaped {special : Char -> Bool} {rest : List Char}
    (hbackslash : special '\\' = false) {text : String} (hlast : text.toList.getLast? ≠ some '\\')
    (hmark : exists mark l, rest = mark :: l ∧ special mark = true) :
    Reads (Reader.escaped special) (escape special text) text.toList rest := by
  rcases hmark with ⟨mark, l, rfl, hmark⟩
  rw [Reads, escape, String.toList_ofList]
  exact unescape_escape hbackslash hmark hlast

/-!
## Statements and drawings
-/

section Statements

variable {rest : List Char}

theorem reads_cell (s : State) : Reads Reader.cell (cellText s) s rest := by
  have hread : Reads Reader.cell ("<" ++ (s.name ++ ("> " ++ (s.name ++ "")))) s rest := by
    refine .bind (.literal _) (.bind (.stateName s ?_) (.bind (.literal _)
      (.bind (.literal _) (.pure s))))
    rw [String.toList_append]
    rfl
  simpa [cellText, String.append_assoc] using hread

theorem intercalate_cons (separator first : String) (others : List String) :
    separator.intercalate (first :: others)
      = first ++ String.join (others.map fun t => separator ++ t) := by
  induction others generalizing first with
  | nil => simp
  | cons second others ih =>
      rw [String.intercalate_cons_cons, ih, List.map_cons, String.join_cons]
      simp [String.append_assoc]

def IsTitle (title : String) : Prop := exists text, title = "[" ++ text ++ "]"

theorem IsTitle.getLast? {title : String} (h : IsTitle title) :
    title.toList.getLast? = some ']' := by
  rcases h with ⟨text, rfl⟩
  rw [String.toList_append]
  exact List.getLast?_concat

theorem reads_label {n : NodeStatement} (h : IsTitle n.title)
    (hrest : exists l, rest = '"' :: l) : Reads Reader.label n.label (n.title, n.cells) rest := by
  rw [NodeStatement.label]
  cases hcells : n.cells with
  | nil =>
      have hread : Reads Reader.label ("" ++ (escape isQuote n.title ++ ""))
          (String.ofList n.title.toList, []) rest := by
        refine .bind (.optional_none ?_) (.bind (.escaped rfl ?_ ?_) (.pure _))
        · rcases h with ⟨text, htitle⟩
          simp [htitle, escape, isQuote, List.dropPrefix?]
        · simp [h.getLast?]
        · rcases hrest with ⟨l, rfl⟩
          exact ⟨'"', l, rfl, rfl⟩
      simpa using hread
  | cons first others =>
      have hread : Reads Reader.label ("\x7b " ++ (escape isRecordMark (n.title ++ " ") ++ ("| \x7b "
          ++ (cellText first ++ ((String.join (others.map fun s => " | " ++ cellText s)
            ++ " \x7d \x7d") ++ "")))))
          (String.ofList (n.title ++ " ").toList.dropLast, first :: others) rest := by
        refine .bind (.optional _) (.bind (.escaped rfl ?_ ?_) (.bind (.literal _)
          (.bind (reads_cell first) (.bind (.manyUntil ?_ ?_) (.pure _)))))
        · simp
        · exact ⟨'|', _, by rw [String.toList_append]; rfl, rfl⟩
        · intro s _ rest
          exact .bind (.literal _) (reads_cell s)
        · intro s _ rest
          rw [String.toList_append]
          rfl
      have hescape : escape isRecordMark (n.title ++ " ") = escape isRecordMark n.title ++ " " := by
        simp [escape, isRecordMark]
      have hdrop : (n.title ++ " ").toList.dropLast = n.title.toList := by
        simp
      have hmark : forall t, " " ++ ("| \x7b " ++ t) = " | \x7b " ++ t :=
        fun t => (String.append_assoc ..).symm
      rw [hescape, hdrop, String.ofList_toList] at hread
      simpa [intercalate_cons, String.append_assoc, Function.comp_def, hmark] using hread

theorem reads_node {n : NodeStatement} (hid : IsWord n.id) (htitle : IsTitle n.title) :
    Reads Reader.node n.text n rest := by
  have hread : Reads Reader.node ("  " ++ (n.id ++ (" [label=\"" ++ (n.label ++ ("\" shape="
      ++ (n.shape ++ ((if n.isInitial then " style=filled fillcolor=red" else "")
        ++ ((if n.isOwner then " peripheries=2" else "") ++ ("]\n" ++ ""))))))))) n rest := by
    refine .bind (.literal _) (.bind (.word hid ?_) (.bind (.literal _) (.bind (reads_label htitle ?_)
      (.bind (.literal _) (.bind (.literal _) (.bind (.flag n.isInitial ?_)
        (.bind (.flag n.isOwner ?_) (.bind (.literal _) (.pure _)))))))))
    · rw [String.toList_append]
      rfl
    · exact ⟨_, by rw [String.toList_append]; rfl⟩
    · cases n.isOwner with
      | true => rfl
      | false => rfl
    · rfl
  simpa [NodeStatement.text, NodeStatement.style, String.append_assoc] using hread

theorem EdgeStatement.text_eq_of_cell {e : EdgeStatement} (h : e.fromCell = true) :
    e.text = "  " ++ e.source ++ ":" ++ e.state.name ++ " -> " ++ e.target
      ++ (if !e.isFlow then " [style=dotted]" else "") ++ "\n" := by
  have hattributes : bracketed e.attributes = if !e.isFlow then " [style=dotted]" else "" := by
    rw [attributes, h]
    cases e.isFlow with
    | true => rfl
    | false => rfl
  simp [text, origin, h, hattributes, String.append_assoc]

theorem EdgeStatement.text_eq_of_label {e : EdgeStatement} (h : e.fromCell = false) :
    e.text = "  " ++ e.source ++ " -> " ++ e.target ++ " [label=\"" ++ e.state.name ++ "\""
      ++ (if !e.isFlow then " style=dotted" else "") ++ "]\n" := by
  apply String.toList_inj.mp
  rw [text, origin, attributes, h]
  cases e.isFlow with
  | true => simp [bracketed]
  | false => simp [bracketed]

theorem reads_edge {e : EdgeStatement} (hsource : IsWord e.source) (htarget : IsWord e.target) :
    Reads Reader.edge e.text e rest := by
  cases hcell : e.fromCell with
  | true =>
      have hread : Reads Reader.edge ("  " ++ (e.source ++ (":" ++ (e.state.name ++ (" -> "
          ++ (e.target ++ ((if !e.isFlow then " [style=dotted]" else "") ++ ("\n" ++ ""))))))))
          ⟨e.source, e.target, e.state, true, !!e.isFlow⟩ rest := by
        refine .bind (.literal _) (.bind (.word hsource ?_) (.bind (.optional _)
          (.bind (.stateName e.state ?_) (.bind (.literal _) (.bind (.word htarget ?_)
            (.bind (.flag (!e.isFlow) ?_) (.bind (.literal _) (.pure _))))))))
        · rw [String.toList_append]
          rfl
        · rw [String.toList_append]
          rfl
        · cases e.isFlow with
          | true => rfl
          | false => rfl
        · rfl
      have hsame : EdgeStatement.mk e.source e.target e.state true (!!e.isFlow) = e := by
        rw [Bool.not_not, ← hcell]
      rw [hsame] at hread
      rw [EdgeStatement.text_eq_of_cell hcell]
      simpa [String.append_assoc] using hread
  | false =>
      have hread : Reads Reader.edge ("  " ++ (e.source ++ ("" ++ (" -> " ++ (e.target
          ++ (" [label=\"" ++ (e.state.name ++ ("\"" ++ ((if !e.isFlow then " style=dotted" else "")
            ++ ("]\n" ++ "")))))))))) ⟨e.source, e.target, e.state, false, !!e.isFlow⟩ rest := by
        refine .bind (.literal _) (.bind (.word hsource ?_) (.bind (.optional_none ?_)
          (.bind (.literal _) (.bind (.word htarget ?_) (.bind (.literal _)
            (.bind (.stateName e.state ?_) (.bind (.literal _) (.bind (.flag (!e.isFlow) ?_)
              (.bind (.literal _) (.pure _))))))))))
        · rw [String.toList_append, String.toList_append]
          rfl
        · rw [String.toList_append]
          rfl
        · rw [String.toList_append]
          rfl
        · rw [String.toList_append]
          rfl
        · rfl
      have hsame : EdgeStatement.mk e.source e.target e.state false (!!e.isFlow) = e := by
        rw [Bool.not_not, ← hcell]
      rw [hsame] at hread
      rw [EdgeStatement.text_eq_of_label hcell]
      simpa [String.append_assoc] using hread

theorem reads_rankdir {rankdir : Option String} (h : forall r, rankdir = some r -> IsWord r)
    (hrest : exists l, rest = '\n' :: l) :
    Reads Reader.rankdir (rankdirText rankdir) rankdir rest := by
  cases rankdir with
  | none =>
      have hread : Reads Reader.rankdir ("" ++ "") none rest := by
        refine .bind (.optional_none ?_) (.pure _)
        rcases hrest with ⟨l, rfl⟩
        rfl
      exact hread
  | some r =>
      have hread : Reads Reader.rankdir ("  rankdir=" ++ (r ++ ("\n" ++ ""))) (some r) rest := by
        refine .bind (.optional _) (.bind (.word (h r rfl) ?_) (.bind (.literal _) (.pure _)))
        rfl
      simpa [rankdirText, String.append_assoc] using hread

end Statements

/-- Everything that stands for a name is a word, and the titles are in brackets. -/
structure Drawing.Legible (d : Drawing) : Prop where
  rankdir : forall r, d.rankdir = some r -> IsWord r
  ids : forall n, n ∈ d.nodes -> IsWord n.id
  titles : forall n, n ∈ d.nodes -> IsTitle n.title
  sources : forall e, e ∈ d.edges -> IsWord e.source
  targets : forall e, e ∈ d.edges -> IsWord e.target

/-- A legible drawing is read back from its text. -/
theorem read?_text {d : Drawing} (h : d.Legible) : read? d.text = some d := by
  have hread : Reads Reader.drawing ("digraph \x7b\n" ++ (rankdirText d.rankdir ++ ("\n"
      ++ ((String.join (d.nodes.map NodeStatement.text) ++ "\n")
        ++ ((String.join (d.edges.map EdgeStatement.text) ++ "\x7d\n") ++ ""))))) d [] := by
    refine .bind (.literal _) (.bind (reads_rankdir h.rankdir ?_) (.bind (.literal _)
      (.bind (.manyUntil ?_ ?_) (.bind (.manyUntil ?_ ?_) (.pure _)))))
    · exact ⟨_, by rw [String.toList_append]; rfl⟩
    · intro n hn rest
      exact reads_node (h.ids n hn) (h.titles n hn)
    · intro n _ rest
      rw [NodeStatement.text]
      simp [List.dropPrefix?]
    · intro e he rest
      exact reads_edge (h.sources e he) (h.targets e he)
    · intro e _ rest
      rw [EdgeStatement.text]
      simp [List.dropPrefix?]
  have hrun : Reader.drawing.run d.text.toList = some (d, []) := by
    rw [Drawing.text]
    simpa only [Reads, String.append_assoc, String.append_empty, List.append_nil] using hread
  rw [read?, hrun]

end Dot

end LaunchGraph
