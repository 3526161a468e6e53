import LaunchGraph.Proofs.Drawing

/-!
# What labels show

In a label a backslash is put before every character of the title that has a meaning there.
Backslashes that the title itself has stay as they are, so that they take part in the escapes.
A label can still be told from every other one, but what is drawn is the title, with nothing of
it taken for the end of the label or of a field, only if the name of the task has no backslash.
-/

namespace LaunchGraph

variable {ρ : Type}

namespace Dot

/-!
## Backslashes
-/

def slashes (l : List Char) : Nat := (l.rtakeWhile (· == '\\')).length

/-- Of a text that comes after `before`, every special character follows an odd number of
backslashes, so that the last of them is one that escapes it. -/
def Escaped (special : Char -> Bool) (before text : List Char) : Prop :=
  forall a c b, text = a ++ c :: b -> special c = true -> Odd (slashes (before ++ a))

/-- What is shown of a text.  After a backslash every character stands for itself, whether or not
it had to be escaped. -/
def shown : List Char -> List Char
  | '\\' :: c :: rest => c :: shown rest
  | c :: rest => c :: shown rest
  | [] => []

theorem slashes_concat_slash (l : List Char) : slashes (l ++ ['\\']) = slashes l + 1 := by
  rw [slashes, List.rtakeWhile_concat_pos _ _ _ rfl, List.length_append]
  rfl

theorem slashes_concat_of_ne (l : List Char) {c : Char} (h : c ≠ '\\') :
    slashes (l ++ [c]) = 0 := by
  rw [slashes, List.rtakeWhile_concat_neg _ _ _ (by simp [h])]
  rfl

theorem shown_cons_of_ne {c : Char} (h : c ≠ '\\') (rest : List Char) :
    shown (c :: rest) = c :: shown rest := by
  rw [shown]
  rintro _ _ rfl
  exact absurd rfl h

/-!
## Escaped characters
-/

section Escaped

variable {special : Char -> Bool} {before l m : List Char}

theorem Escaped.nil : Escaped special before [] := by
  intro a c b h
  simp at h

theorem escaped_of_plain (h : forall c, c ∈ l -> special c = false) :
    Escaped special before l := by
  intro a c b hsplit hc
  have hplain := h c (by simp [hsplit])
  rw [hc] at hplain
  cases hplain

theorem Escaped.mono {special' : Char -> Bool} (h : Escaped special before l)
    (hmono : forall c, special' c = true -> special c = true) : Escaped special' before l :=
  fun a c b hsplit hc => h a c b hsplit (hmono c hc)

theorem escaped_append :
    Escaped special before (l ++ m) ↔
      Escaped special before l ∧ Escaped special (before ++ l) m := by
  constructor
  · intro h
    constructor
    · intro a c b hsplit hc
      exact h a c (b ++ m) (by simp [hsplit]) hc
    · intro a c b hsplit hc
      rw [List.append_assoc]
      exact h (l ++ a) c b (by simp [hsplit]) hc
  · rintro ⟨hl, hm⟩ a c b hsplit hc
    rcases List.append_eq_append_iff.mp hsplit with ⟨k, rfl, hk⟩ | ⟨k, rfl, hk⟩
    · have hodd := hm k c b hk hc
      rw [List.append_assoc] at hodd
      exact hodd
    · cases k with
      | nil =>
          have hodd := hm [] c b hk.symm hc
          rw [List.append_nil, List.append_nil] at hodd
          exact hodd
      | cons d k =>
          rw [List.cons_append, List.cons.injEq] at hk
          exact hl a c k (by rw [hk.left]) hc

end Escaped

/-!
## Escaping
-/

section Escape

variable {special : Char -> Bool}

def mark (special : Char -> Bool) (c : Char) : List Char :=
  if special c then ['\\', c] else [c]

theorem toList_escape (text : String) :
    (escape special text).toList = text.toList.flatMap (mark special) :=
  String.toList_ofList

theorem slashes_append_mark (before : List Char) {c : Char} (hc : c ≠ '\\') :
    slashes (before ++ mark special c) = 0 := by
  rw [mark]
  split
  · rw [List.append_cons]
    exact slashes_concat_of_ne _ hc
  · exact slashes_concat_of_ne _ hc

theorem slashes_append_escaped {before a : List Char} (hbefore : slashes before = 0)
    (ha : '\\' ∉ a) : slashes (before ++ a.flatMap (mark special)) = 0 := by
  induction a generalizing before with
  | nil => rw [List.flatMap_nil, List.append_nil, hbefore]
  | cons c a ih =>
      rw [List.mem_cons, not_or] at ha
      rw [List.flatMap_cons, ← List.append_assoc]
      exact ih (slashes_append_mark before (Ne.symm ha.left)) ha.right

variable (hbackslash : special '\\' = false)

include hbackslash

theorem escaped_of_no_slash {before text : List Char} (hbefore : slashes before = 0)
    (htext : '\\' ∉ text) :
    Escaped special before (text.flatMap (mark special)) := by
  induction text generalizing before with
  | nil => exact .nil
  | cons c text ih =>
      rw [List.mem_cons, not_or] at htext
      have hc := Ne.symm htext.left
      rw [List.flatMap_cons, escaped_append]
      refine ⟨?_, ih (slashes_append_mark before hc) htext.right⟩
      rw [mark]
      split
      · -- Only the character itself is special, and it follows one backslash.
        rw [← List.singleton_append, escaped_append]
        refine ⟨escaped_of_plain (by simp [hbackslash]), ?_⟩
        intro a d b hsplit _
        cases a with
        | nil =>
            rw [List.append_nil, slashes_concat_slash, hbefore]
            exact odd_one
        | cons e a => simp at hsplit
      · next hplain => exact escaped_of_plain (by simpa using hplain)

omit hbackslash in
theorem shown_mark {c : Char} (hc : c ≠ '\\') (rest : List Char) :
    shown (mark special c ++ rest) = c :: shown rest := by
  rw [mark]
  split
  · rw [List.cons_append, List.singleton_append, shown]
  · rw [List.singleton_append, shown_cons_of_ne hc]

theorem mark_slash : mark special '\\' = ['\\'] := by
  rw [mark, hbackslash]
  rfl

/-- After a backslash the backslash of an escape is shown instead of being one. -/
theorem shown_slash_mark (d : Char) (rest : List Char) :
    shown ('\\' :: (mark special d ++ rest)) = mark special d ++ shown rest := by
  rw [mark]
  split
  · next hd =>
      have hne : d ≠ '\\' := by
        rintro rfl
        rw [hbackslash] at hd
        cases hd
      rw [List.cons_append, List.singleton_append, shown, shown_cons_of_ne hne]
      rfl
  · rw [List.singleton_append, shown]
    rfl

omit hbackslash in
theorem shown_append_of_no_slash {a : List Char} (ha : '\\' ∉ a) (rest : List Char) :
    shown (a.flatMap (mark special) ++ rest) = a ++ shown rest := by
  induction a with
  | nil => rfl
  | cons c a ih =>
      rw [List.mem_cons, not_or] at ha
      rw [List.flatMap_cons, List.append_assoc, shown_mark (Ne.symm ha.left), ih ha.right,
        List.cons_append]

theorem length_shown_le :
    forall text : List Char, (shown (text.flatMap (mark special))).length ≤ text.length
  | [] => Nat.le_refl _
  | c :: text => by
      have ih := length_shown_le text
      rw [List.flatMap_cons]
      by_cases hslash : c = '\\'
      · rw [hslash, mark_slash hbackslash, List.singleton_append]
        match text with
        | [] => exact Nat.le_refl _
        | d :: text =>
            have ih' := length_shown_le text
            have hmark : (mark special d).length ≤ 2 := by
              rw [mark]
              split
              · exact Nat.le_refl _
              · exact Nat.le_succ _
            rw [List.flatMap_cons, shown_slash_mark hbackslash, List.length_append]
            simp only [List.length_cons]
            omega
      · rw [shown_mark hslash]
        exact Nat.succ_le_succ ih

/-- A backslash of the text either escapes the backslash before a special character, or is not
shown. -/
theorem no_slash_of_escaped {before text : List Char} (hbefore : slashes before = 0)
    (hlast : text.getLast? ≠ some '\\')
    (hescaped : Escaped special before (text.flatMap (mark special)))
    (hshown : shown (text.flatMap (mark special)) = text) : '\\' ∉ text := by
  intro hmem
  rcases List.eq_append_cons_of_mem hmem with ⟨a, b, rfl, ha⟩
  rw [List.flatMap_append, List.flatMap_cons, mark_slash hbackslash] at hescaped hshown
  rw [shown_append_of_no_slash ha, List.append_cancel_left_eq, List.singleton_append] at hshown
  cases b with
  | nil => simp at hlast
  | cons d b =>
      rw [List.flatMap_cons] at hescaped hshown
      rw [shown_slash_mark hbackslash] at hshown
      cases hd : special d with
      | true =>
          -- The character comes after its own backslash and the one of the text.
          rw [mark, if_pos hd] at hescaped
          have hodd := hescaped (a.flatMap (mark special) ++ ['\\', '\\']) d
            (b.flatMap (mark special)) (by simp) hd
          have hcount : slashes (before ++ (a.flatMap (mark special) ++ ['\\', '\\'])) = 2 := by
            rw [← List.append_assoc, List.append_cons, slashes_concat_slash, slashes_concat_slash,
              slashes_append_escaped hbefore ha]
          rw [hcount] at hodd
          exact absurd hodd (by decide)
      | false =>
          -- The backslash of the text is gone, so that one character is missing.
          rw [mark, hd, if_neg Bool.false_ne_true, List.singleton_append, List.cons.injEq] at hshown
          have hle := length_shown_le hbackslash b
          rw [hshown.right, List.length_cons] at hle
          exact absurd hle (Nat.not_succ_le_self _)

end Escape

/-!
## Labels
-/

def opening (cells : List State) : String := if cells.isEmpty then "" else "\x7b "

def closing (cells : List State) : String :=
  if cells.isEmpty then ""
  else " | \x7b " ++ " | ".intercalate (cells.map cellText) ++ " \x7d \x7d"

def isMark (cells : List State) : Char -> Bool :=
  if cells.isEmpty then isQuote else isRecordMark

/-- Of a label, `text` can be drawn as the title: no quotation mark ends the label before its
end, nothing of the text is taken for a mark of the record, and what is shown is the title. -/
structure NodeStatement.Reversible (n : NodeStatement) (text : String) : Prop where
  label : n.label = opening n.cells ++ text ++ closing n.cells
  quotes : Escaped isQuote [] n.label.toList
  marks : n.cells ≠ [] -> Escaped isRecordMark (opening n.cells).toList text.toList
  shown : shown text.toList = n.title.toList

theorem NodeStatement.label_eq (n : NodeStatement) :
    n.label = opening n.cells ++ escape (isMark n.cells) n.title ++ closing n.cells := by
  rw [label, opening, isMark, closing]
  split
  · rw [String.empty_append, String.append_empty]
  · simp only [String.append_assoc]

theorem isMark_backslash (cells : List State) : isMark cells '\\' = false := by
  rw [isMark]
  split
  · rfl
  · rfl

theorem isMark_of_isQuote {c : Char} (h : isQuote c = true) (cells : List State) :
    isMark cells c = true := by
  rw [isMark]
  split
  · exact h
  · rw [isRecordMark, beq_iff_eq.mp h]
    rfl

theorem slashes_opening (cells : List State) : slashes (opening cells).toList = 0 := by
  rw [opening]
  split
  · rfl
  · rfl

/-!
### Quotation marks
-/

def IsUnquoted (text : String) : Prop := text.toList.all (fun c => !isQuote c) = true

theorem IsUnquoted.append {a b : String} (ha : IsUnquoted a) (hb : IsUnquoted b) :
    IsUnquoted (a ++ b) := by
  rw [IsUnquoted, String.toList_append, List.all_append, ha, hb]
  rfl

theorem IsUnquoted.escaped {text : String} (h : IsUnquoted text) (before : List Char) :
    Escaped isQuote before text.toList := by
  apply escaped_of_plain
  intro c hc
  exact (Bool.not_eq_true' _).mp (List.all_eq_true.mp h c hc)

theorem IsWord.isUnquoted {text : String} (h : IsWord text) : IsUnquoted text := by
  rw [IsUnquoted, List.all_eq_true]
  intro c hc
  have hword := List.all_eq_true.mp h c hc
  rw [Bool.not_eq_true', isQuote, beq_eq_false_iff_ne]
  rintro rfl
  cases hword

theorem isUnquoted_cellText (s : State) : IsUnquoted (cellText s) := by
  have hname := (isWord_name s).isUnquoted
  have hopen : IsUnquoted "<" := rfl
  have hclose : IsUnquoted "> " := rfl
  exact ((hopen.append hname).append hclose).append hname

theorem isUnquoted_intercalate {separator : String} (hseparator : IsUnquoted separator) :
    forall {texts : List String}, (forall t, t ∈ texts -> IsUnquoted t) ->
      IsUnquoted (separator.intercalate texts)
  | [], _ => rfl
  | [t], h => by
      rw [String.intercalate_singleton]
      exact h t List.mem_cons_self
  | t :: u :: texts, h => by
      rw [String.intercalate_cons_cons]
      have hrest := isUnquoted_intercalate hseparator fun v hv => h v (List.mem_cons_of_mem t hv)
      exact ((h t List.mem_cons_self).append hseparator).append hrest

theorem isUnquoted_opening (cells : List State) : IsUnquoted (opening cells) := by
  rw [opening]
  split
  · rfl
  · rfl

theorem isUnquoted_closing (cells : List State) : IsUnquoted (closing cells) := by
  have hbar : IsUnquoted " | " := rfl
  have hstart : IsUnquoted " | \x7b " := rfl
  have hend : IsUnquoted " \x7d \x7d" := rfl
  rw [closing]
  split
  · rfl
  · apply (hstart.append (isUnquoted_intercalate hbar _)).append hend
    intro t ht
    rcases List.mem_map.mp ht with ⟨s, _, rfl⟩
    exact isUnquoted_cellText s

theorem escaped_label {n : NodeStatement} {text : String}
    (h : n.label = opening n.cells ++ text ++ closing n.cells) :
    Escaped isQuote [] n.label.toList ↔
      Escaped isQuote (opening n.cells).toList text.toList := by
  rw [h, String.toList_append, String.toList_append, escaped_append, escaped_append]
  constructor
  · intro hall
    exact hall.left.right
  · intro htext
    exact ⟨⟨(isUnquoted_opening _).escaped _, htext⟩, (isUnquoted_closing _).escaped _⟩

/-!
### Titles
-/

/-- The escaping of labels can be undone exactly for titles without backslashes. -/
theorem NodeStatement.reversible_iff {n : NodeStatement} (htitle : IsTitle n.title) :
    (exists text, n.Reversible text) ↔ '\\' ∉ n.title.toList := by
  have hlabel := n.label_eq
  have hopening := slashes_opening n.cells
  have hbackslash := isMark_backslash n.cells
  constructor
  · rintro ⟨text, h⟩
    have htext : text.toList = n.title.toList.flatMap (mark (isMark n.cells)) := by
      have hsame := congrArg String.toList (h.label.symm.trans hlabel)
      simp only [String.toList_append, toList_escape] at hsame
      exact List.append_cancel_left (List.append_cancel_right hsame)
    have hescaped : Escaped (isMark n.cells) (opening n.cells).toList text.toList := by
      rw [isMark]
      split
      · exact (escaped_label h.label).mp h.quotes
      · next hcells => exact h.marks fun hnil => hcells (by rw [hnil]; rfl)
    have hshown := h.shown
    rw [htext] at hescaped hshown
    apply no_slash_of_escaped hbackslash hopening _ hescaped hshown
    simp [htitle.getLast?]
  · intro hslash
    have hescaped := escaped_of_no_slash hbackslash hopening hslash
    rw [← toList_escape] at hescaped
    refine ⟨_, hlabel, ?_, ?_, ?_⟩
    · rw [escaped_label hlabel]
      exact hescaped.mono fun c hc => isMark_of_isQuote hc n.cells
    · intro hcells
      rw [isMark, if_neg (by simp [hcells])] at hescaped ⊢
      exact hescaped
    · rw [toList_escape]
      rw [← List.append_nil (n.title.toList.flatMap _), shown_append_of_no_slash hslash, Dot.shown,
        List.append_nil]

theorem NodeStatement.label_inj {n n' : NodeStatement} (h : IsTitle n.title)
    (h' : IsTitle n'.title) (heq : n.label = n'.label) : n.title = n'.title ∧ n.cells = n'.cells := by
  have hread : Reads Reader.label n.label (n.title, n.cells) ['"'] := reads_label h ⟨[], rfl⟩
  have hread' : Reads Reader.label n'.label (n'.title, n'.cells) ['"'] := reads_label h' ⟨[], rfl⟩
  rw [Reads, heq, hread'] at hread
  rcases Prod.mk.inj (Option.some.inj hread) with ⟨hsame, _⟩
  exact Prod.mk.inj hsame.symm

end Dot

/-!
## Nodes
-/

namespace Node

theorem slash_mem_label (n : Node ρ) :
    '\\' ∈ n.label.toList ↔ '\\' ∈ n.task.name.toList := by
  have hnumber : '\\' ∉ (toString n.launchId).toList :=
    not_mem_of_isAlphanum (all_isAlphanum_toString n.launchId) rfl
  have hopen : '\\' ∉ "[node: ".toList := by decide
  have hcolon : '\\' ∉ ":".toList := by decide
  have hclose : '\\' ∉ "]".toList := by decide
  rw [label]
  simp only [String.toList_append, List.mem_append, hopen, hcolon, hnumber, hclose, false_or,
    or_false]

theorem label_inj {n m : Node ρ} (h : n.label = m.label) :
    n.task.name = m.task.name ∧ n.launchId = m.launchId := by
  have hnumber : forall i : Nat, ':' ∉ (toString i ++ "]").toList := by
    intro i
    rw [String.toList_append, List.mem_append, not_or]
    exact ⟨not_mem_of_isAlphanum (all_isAlphanum_toString i) rfl, by decide⟩
  have hsplit : "[node: " ++ n.task.name ++ ":" ++ (toString n.launchId ++ "]")
      = "[node: " ++ m.task.name ++ ":" ++ (toString m.launchId ++ "]") := by
    rw [label, label] at h
    simpa only [String.append_assoc] using h
  rcases Dot.append_singleton_inj (hnumber _) (hnumber _) hsplit with ⟨hname, hid⟩
  refine ⟨Dot.append_left_cancel hname, Dot.toString_inj ?_⟩
  have hlists := congrArg String.toList hid
  rw [String.toList_append, String.toList_append] at hlists
  exact String.toList_inj.mp (List.append_cancel_right hlists)

end Node

namespace Graph

/-- The label of a node can be drawn as the title exactly if the name of the task has no
backslash.  Two nodes have the same label exactly if they have the same name, the same launch
number and the same cells. -/
theorem label_reversible_iff (g g' : Graph ρ) (slot slot' : NodeKey -> Nat)
    (threshold threshold' : Nat) (v v' : Vertex ρ) :
    ((exists text, (g.nodeStatement slot threshold v).Reversible text) ↔
      '\\' ∉ v.task.name.toList) ∧
    ((g.nodeStatement slot threshold v).label = (g'.nodeStatement slot' threshold' v').label ↔
      v.task.name = v'.task.name ∧ v.launchId = v'.launchId ∧
        (g.nodeStatement slot threshold v).cells
          = (g'.nodeStatement slot' threshold' v').cells) := by
  constructor
  · rw [Dot.NodeStatement.reversible_iff v.label_isTitle]
    exact not_congr v.slash_mem_label
  · constructor
    · intro h
      rcases Dot.NodeStatement.label_inj v.label_isTitle v'.label_isTitle h with ⟨htitle, hcells⟩
      rcases Node.label_inj htitle with ⟨hname, hid⟩
      exact ⟨hname, hid, hcells⟩
    · rintro ⟨hname, hid, hcells⟩
      have htitle : v.label = v'.label := by rw [Node.label, Node.label, hname, hid]
      rw [Dot.NodeStatement.label_eq, Dot.NodeStatement.label_eq, hcells]
      show _ ++ Dot.escape _ v.label ++ _ = _ ++ Dot.escape _ v'.label ++ _
      rw [htitle]

end Graph

namespace Sample

def slashed : Task :=
  { name := "a\\\"b", taskType := .serial, outputs := .ofList [cell 0] }

def ornate : Task :=
  { name := "\x7b<a>|\"b\"\x7d", taskType := .serial, outputs := .ofList [cell 0] }

def lettered : Session Task :=
  match Session.new.perform Bank.ofTasks (.insertTasks false [slashed, ornate]) with
  | .ok s => s
  | .error _ => .new

def letter (threshold : Nat) (v : Vertex Task) : Dot.NodeStatement :=
  lettered.graph.nodeStatement lettered.graph.positionOf threshold v

end Sample

namespace Graph

theorem label_reversible_iff_lettered :
    exists v w, v ∈ Sample.lettered.graph.pending ∧ w ∈ Sample.lettered.graph.pending ∧
      v.task = Sample.slashed ∧ w.task = Sample.ornate ∧
      (exists text, (Sample.letter 0 w).Reversible text) ∧
      (exists text, (Sample.letter 1 w).Reversible text) ∧
      (¬exists text, (Sample.letter 0 v).Reversible text) ∧
      (Sample.letter 0 v).label ≠ (Sample.letter 0 w).label := by
  let g := Sample.lettered.graph
  have hpair := fun threshold => label_reversible_iff g g g.positionOf g.positionOf threshold threshold
  refine ⟨g.vertexOf ⟨1⟩, g.vertexOf ⟨2⟩, List.mem_cons_self,
    List.mem_cons_of_mem _ List.mem_cons_self, rfl, rfl, ?_, ?_, ?_, ?_⟩
  · exact (hpair 0 (g.vertexOf ⟨2⟩) (g.vertexOf ⟨2⟩)).left.mpr (by decide)
  · exact (hpair 1 (g.vertexOf ⟨2⟩) (g.vertexOf ⟨2⟩)).left.mpr (by decide)
  · intro h
    exact (hpair 0 (g.vertexOf ⟨1⟩) (g.vertexOf ⟨1⟩)).left.mp h (by decide)
  · intro h
    have hsame := (hpair 0 (g.vertexOf ⟨1⟩) (g.vertexOf ⟨2⟩)).right.mp h
    exact absurd hsame.left (by decide)

/-- The quotation mark of the name ends the label in both styles. -/
theorem label_ends_early :
    Session.Reachable Bank.ofTasks Session.Allowed Sample.lettered ∧
      exists v, v ∈ Sample.lettered.graph.pending ∧ v.task.name = "a\\\"b" ∧
        (Sample.letter 0 v).cells = [] ∧
        ¬Dot.Escaped Dot.isQuote [] (Sample.letter 0 v).label.toList ∧
        (Sample.letter 1 v).cells = [Sample.cell 0] ∧
        ¬Dot.Escaped Dot.isQuote [] (Sample.letter 1 v).label.toList := by
  have hreachable : Session.Reachable Bank.ofTasks Session.Allowed Sample.lettered :=
    .step (a := .insertTasks false [Sample.slashed, Sample.ornate]) .start trivial rfl
  refine ⟨hreachable, Sample.lettered.graph.vertexOf ⟨1⟩, List.mem_cons_self, rfl, rfl, ?_, rfl, ?_⟩
  · intro h
    have hodd := h "[node: a\\\\".toList '"' "b:0]".toList (by decide +kernel) rfl
    exact absurd hodd (by decide)
  · intro h
    have hodd := h "\x7b [node: a\\\\".toList '"'
      "b:0] | \x7b <S0_value> S0_value \x7d \x7d".toList (by decide +kernel) rfl
    exact absurd hodd (by decide)

end Graph

end LaunchGraph
