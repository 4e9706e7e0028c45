import TermStream.Misuse

namespace TermStream

structure QueueNode (α : Type) where
  value : Option α
  next : Option Nat

/-- A mark stands behind the node `after`, or in front of the queue. A committed mark holds the
output back and is passed over by insertions. -/
structure Mark where
  after : Option Nat
  committed : Bool
deriving DecidableEq

/-- A first-in first-out queue with nested marks: a value can be put at a marked place later, and
nothing leaves the queue while there is a mark. Nodes that have left the queue are used again, the
one freed last before the others. -/
structure MarkedQueue (α : Type) where
  nodes : Array (QueueNode α)
  free : List Nat
  head : Option Nat
  tail : Option Nat
  /-- The innermost mark first. -/
  marks : List Mark
  length : Nat

namespace MarkedQueue
variable {α : Type}

def empty : MarkedQueue α := ⟨#[], [], none, none, [], 0⟩

instance : Inhabited (MarkedQueue α) := ⟨empty⟩

def isEmpty (q : MarkedQueue α) : Bool := q.length == 0

def hasMark (q : MarkedQueue α) : Bool := !q.marks.isEmpty

def markCount (q : MarkedQueue α) : Nat := q.marks.length

def activeMark? (q : MarkedQueue α) : Option Mark := q.marks.find? (fun m => !m.committed)

def hasActiveMark (q : MarkedQueue α) : Bool := q.activeMark?.isSome

def needsMore (q : MarkedQueue α) : Bool := q.hasMark || q.isEmpty

def hasOutput (q : MarkedQueue α) : Bool := !q.needsMore

def following (q : MarkedQueue α) : Option Nat → Option Nat
  | none => q.head
  | some i => q.nodes[i]?.bind (·.next)

def valueAt? (q : MarkedQueue α) (i : Nat) : Option α := q.nodes[i]?.bind (·.value)

def pushMark (q : MarkedQueue α) : MarkedQueue α :=
  { q with marks := ⟨q.tail, false⟩ :: q.marks }

def popMark (q : MarkedQueue α) : Except Misuse (MarkedQueue α) :=
  match q.marks with
  | [] => .error .noMark
  | _ :: marks => .ok { q with marks := marks }

def commitFirst : List Mark → Option (List Mark)
  | [] => none
  | m :: marks =>
    if m.committed then (commitFirst marks).map (m :: ·)
    else some ({ m with committed := true } :: marks)

def commitMark (q : MarkedQueue α) : Except Misuse (MarkedQueue α) :=
  match commitFirst q.marks with
  | none => .error .noMark
  | some marks => .ok { q with marks := marks }

def allocate (q : MarkedQueue α) (node : QueueNode α) : Nat × MarkedQueue α :=
  match q.free with
  | i :: free => (i, { q with free := free, nodes := q.nodes.setIfInBounds i node })
  | [] => (q.nodes.size, { q with nodes := q.nodes.push node })

def link (q : MarkedQueue α) (after : Option Nat) (next : Nat) : MarkedQueue α :=
  match after with
  | none => { q with head := some next }
  | some i => { q with nodes := q.nodes.modify i (fun node => { node with next := some next }) }

def insertAfter (q : MarkedQueue α) (after : Option Nat) (value : α) : Nat × MarkedQueue α :=
  let next := q.following after
  let (i, q) := q.allocate ⟨some value, next⟩
  let q := q.link after i
  (i, { q with tail := if next.isNone then some i else q.tail, length := q.length + 1 })

def append (q : MarkedQueue α) (value : α) : MarkedQueue α := (q.insertAfter q.tail value).2

/-- Puts a value at the innermost mark that is not committed. The mark does not move, so of two
values put at it the later one comes first. -/
def insertAtMark (q : MarkedQueue α) (value : α) : Except Misuse (MarkedQueue α) :=
  match q.activeMark? with
  | none => .error .noMark
  | some m => .ok (q.insertAfter m.after value).2

def moveOutermost (i : Nat) : List Mark → List Mark
  | [] => []
  | [m] => [{ m with after := some i }]
  | m :: marks => m :: moveOutermost i marks

/-- Puts a value in front of the whole queue and moves the outermost mark behind it. -/
def insertBeforeMark (q : MarkedQueue α) (value : α) : Except Misuse (MarkedQueue α) :=
  if q.marks.isEmpty then .error .noMark
  else
    let (i, q) := q.insertAfter none value
    .ok { q with marks := moveOutermost i q.marks }

def peekAtMark? (q : MarkedQueue α) : Option α :=
  match q.activeMark? with
  | none => none
  | some m => (q.following m.after).bind q.valueAt?

def get (q : MarkedQueue α) : Except Misuse (Option α × MarkedQueue α) :=
  if q.hasMark then .error (.marksLive q.markCount)
  else
    match q.head with
    | none => .ok (none, q)
    | some i =>
      let next := q.following (some i)
      .ok (q.valueAt? i,
        { q with
          nodes := q.nodes.modify i (fun node => { node with value := none })
          free := i :: q.free
          head := next
          tail := if next.isNone then none else q.tail
          length := q.length - 1 })

/-- The values of the nodes from `i` on, through at most `fuel` nodes. -/
def valuesFrom (q : MarkedQueue α) : Nat → Option Nat → List α
  | 0, _ => []
  | _, none => []
  | fuel + 1, some i => (q.valueAt? i).toList ++ q.valuesFrom fuel (q.following (some i))

/-- The values of the queue in order. A node is met once, so there are no more than the slab has. -/
def toList (q : MarkedQueue α) : List α := q.valuesFrom q.nodes.size q.head

end MarkedQueue

end TermStream
