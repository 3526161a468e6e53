import LaunchGraph.OrderedSet

/-!
# States

A state is one unit of mutable data that a task may read or write: one aspect
of a field of the spatial data structure, or of a kernel's temporary buffer.
States are compared by identity, so the values and the mask of one field are
unrelated.

The module gives the order in which sets of states are listed, the short name
of a state, and its long form.
-/

namespace LaunchGraph

/-- A node of the spatial data structure tree. -/
structure SNodeId where
  number : UInt32
deriving DecidableEq, Inhabited

/-- A compiled kernel. -/
structure KernelId where
  number : UInt32
deriving DecidableEq, Inhabited

/-- What a state lives in. -/
inductive Resource where
  /-- A field of the spatial data structure. -/
  | snode (id : SNodeId)
  /-- The global temporary buffer of one kernel. -/
  | globalTmp (kernel : KernelId)
deriving DecidableEq, Inhabited

/-- Which aspect of a resource a state is. -/
inductive StateKind where
  /-- The stored values. -/
  | value
  /-- The activation mask. -/
  | mask
  /-- The generated index list that struct-for loops run over. -/
  | list
  /-- The memory allocator behind dynamic structures. -/
  | allocator
deriving DecidableEq, Inhabited

/-- One unit of mutable data. -/
structure State where
  resource : Resource
  kind : StateKind
deriving DecidableEq, Inhabited

/-! ## Order -/

theorem SNodeId.toNat_lt (s : SNodeId) : s.number.toNat < UInt32.size :=
  s.number.toNat_lt_size

theorem SNodeId.eq_of_toNat_eq {s t : SNodeId} (h : s.number.toNat = t.number.toNat) : s = t := by
  cases s
  cases t
  exact congrArg SNodeId.mk (UInt32.toNat_inj.1 h)

theorem KernelId.eq_of_toNat_eq {k l : KernelId} (h : k.number.toNat = l.number.toNat) :
    k = l := by
  cases k
  cases l
  exact congrArg KernelId.mk (UInt32.toNat_inj.1 h)

instance : Ranked SNodeId where
  rank s := s.number.toNat
  rank_injective _ _ h := SNodeId.eq_of_toNat_eq h

/-- Fields come before temporaries, each by number. -/
def Resource.position : Resource -> Nat
  | .snode s => s.number.toNat
  | .globalTmp k => UInt32.size + k.number.toNat

theorem Resource.eq_of_position_eq {r q : Resource} (h : r.position = q.position) : r = q := by
  cases r with
  | snode s =>
      cases q with
      | snode t => exact congrArg Resource.snode (SNodeId.eq_of_toNat_eq h)
      | globalTmp l =>
          have := s.toNat_lt
          simp only [position] at h
          omega
  | globalTmp k =>
      cases q with
      | snode t =>
          have := t.toNat_lt
          simp only [position] at h
          omega
      | globalTmp l =>
          simp only [position, Nat.add_left_cancel_iff] at h
          exact congrArg Resource.globalTmp (KernelId.eq_of_toNat_eq h)

/-- The place of a kind among the states of one resource. -/
def StateKind.position : StateKind -> Nat
  | .value => 0
  | .mask => 1
  | .list => 2
  | .allocator => 3

theorem StateKind.position_lt (k : StateKind) : k.position < 4 := by
  cases k <;> decide

theorem StateKind.eq_of_position_eq {k l : StateKind} (h : k.position = l.position) : k = l := by
  cases k <;> cases l <;> first | rfl | cases h

/-- States are listed by resource, then by kind. -/
instance : Ranked State where
  rank s := s.resource.position * 4 + s.kind.position
  rank_injective a b h := by
    have ha := a.kind.position_lt
    have hb := b.kind.position_lt
    cases a
    cases b
    dsimp only at h ha hb
    rw [State.mk.injEq]
    exact ⟨Resource.eq_of_position_eq (by omega), StateKind.eq_of_position_eq (by omega)⟩

abbrev StateSet := OrderedSet State

namespace State

def ofSNode (s : SNodeId) (kind : StateKind) : State := ⟨.snode s, kind⟩

def snode? (s : State) : Option SNodeId :=
  match s.resource with
  | .snode id => some id
  | .globalTmp _ => none

end State

/-! ## Names -/

/-- Names of resources: `S3` for a field, `tmp3` for a kernel's temporaries. -/
def Resource.name : Resource -> String
  | .snode s => "S" ++ toString s.number.toNat
  | .globalTmp k => "tmp" ++ toString k.number.toNat

def StateKind.name : StateKind -> String
  | .value => "value"
  | .mask => "mask"
  | .list => "list"
  | .allocator => "allocator"

def StateKind.tag : StateKind -> String
  | .value => "Value"
  | .mask => "Mask"
  | .list => "List"
  | .allocator => "Allocator"

def StateKind.all : List StateKind := [.value, .mask, .list, .allocator]

/-- The short name of a state: its resource and its kind, as in `S1_mask`. -/
def State.name (s : State) : String := s.resource.name ++ "_" ++ s.kind.name

/-- The long form of a resource, as in `SNode(SNodeId(1))`. -/
def Resource.longForm : Resource -> String
  | .snode s => "SNode(SNodeId(" ++ toString s.number.toNat ++ "))"
  | .globalTmp k => "GlobalTmp(KernelId(" ++ toString k.number.toNat ++ "))"

def State.longForm (s : State) : String :=
  "AsyncState \x7b resource: " ++ s.resource.longForm ++ ", kind: " ++ s.kind.tag ++ " \x7d"

def State.longFormList (states : List State) : String :=
  "[" ++ String.intercalate ", " (states.map State.longForm) ++ "]"

/-- A 32-bit number written in decimal digits. -/
def wordOfDigits? (text : String) : Option UInt32 :=
  if text.toList.all Char.isDigit then
    text.toNat?.bind fun n => if n < UInt32.size then some (UInt32.ofNat n) else none
  else
    none

def Resource.ofName? (text : String) : Option Resource :=
  match text.toList with
  | 'S' :: digits => (wordOfDigits? (String.ofList digits)).map fun n => .snode ⟨n⟩
  | 't' :: 'm' :: 'p' :: digits =>
      (wordOfDigits? (String.ofList digits)).map fun n => .globalTmp ⟨n⟩
  | _ => none

def State.ofName? (text : String) : Option State :=
  match (text.split '_').toList.map (·.copy) with
  | [resource, kind] => do
      let resource ← Resource.ofName? resource
      let kind ← StateKind.all.find? (·.name == kind)
      return ⟨resource, kind⟩
  | _ => none

end LaunchGraph
