/-!
# Linked queues with stable slots

Two queues share one arena of nodes that are linked by index. A node keeps its slot while it moves
within its queue or to the other one, so a slot that was handed out denotes the same item until that
item is removed. `toList` is the view of a queue: its slots and items from front to back.
-/

namespace CompactionLeasing

inductive Queue where
  | pending
  | active
deriving DecidableEq

/-- The index of a node in the arena. -/
abbrev Slot := Nat

namespace Queues

structure Node (α : Type) where
  item : α
  queue : Queue
  prev : Option Slot
  next : Option Slot

structure Ends where
  head : Option Slot
  tail : Option Slot
  len : Nat

end Queues

open Queues (Node Ends)

/-- An arena with two linked queues. A vacant index is `none` and stands in `free`. -/
structure Queues (α : Type) where
  nodes : Array (Option (Node α))
  /-- The vacant indices; the one freed last comes first and is used first. -/
  free : List Slot
  pending : Ends
  active : Ends

namespace Queues

variable {α : Type}

def empty : Queues α := ⟨#[], [], ⟨none, none, 0⟩, ⟨none, none, 0⟩⟩

instance : Inhabited (Queues α) := ⟨empty⟩

def node? (q : Queues α) (i : Slot) : Option (Node α) := q.nodes[i]?.join

def ends (q : Queues α) : Queue → Ends
  | .pending => q.pending
  | .active => q.active

def modifyEnds (q : Queues α) (queue : Queue) (f : Ends → Ends) : Queues α :=
  match queue with
  | .pending => { q with pending := f q.pending }
  | .active => { q with active := f q.active }

/-- Changes the node in a slot; a vacant slot stays vacant. -/
def modifyNode (q : Queues α) (i : Slot) (f : Node α → Node α) : Queues α :=
  { q with nodes := q.nodes.modify i (·.map f) }

def len (q : Queues α) (queue : Queue) : Nat := (q.ends queue).len

def isEmpty (q : Queues α) (queue : Queue) : Bool := q.len queue == 0

def front? (q : Queues α) (queue : Queue) : Option Slot := (q.ends queue).head

def back? (q : Queues α) (queue : Queue) : Option Slot := (q.ends queue).tail

def next? (q : Queues α) (i : Slot) : Option Slot := (q.node? i).bind (·.next)

def prev? (q : Queues α) (i : Slot) : Option Slot := (q.node? i).bind (·.prev)

def get? (q : Queues α) (i : Slot) : Option α := (q.node? i).map (·.item)

def queueOf? (q : Queues α) (i : Slot) : Option Queue := (q.node? i).map (·.queue)

def set (q : Queues α) (i : Slot) (item : α) : Queues α :=
  q.modifyNode i fun n => { n with item := item }

/-- Takes a node out of its queue; the node stays in the arena. -/
def unlink (q : Queues α) (i : Slot) : Queues α :=
  match q.node? i with
  | none => q
  | some n =>
    let q := q.modifyNode i fun n => { n with prev := none, next := none }
    let q := match n.prev with
      | some p => q.modifyNode p fun m => { m with next := n.next }
      | none => q.modifyEnds n.queue fun e => { e with head := n.next }
    let q := match n.next with
      | some s => q.modifyNode s fun m => { m with prev := n.prev }
      | none => q.modifyEnds n.queue fun e => { e with tail := n.prev }
    q.modifyEnds n.queue fun e => { e with len := e.len - 1 }

/-- Puts a node that is in no queue in front of `before`, or at the back. -/
def link (q : Queues α) (i : Slot) (queue : Queue) (before : Option Slot) : Queues α :=
  let prev := match before with
    | some b => q.prev? b
    | none => q.back? queue
  let q := q.modifyNode i fun n => { n with queue := queue, prev := prev, next := before }
  let q := match prev with
    | some p => q.modifyNode p fun m => { m with next := some i }
    | none => q.modifyEnds queue fun e => { e with head := some i }
  let q := match before with
    | some b => q.modifyNode b fun m => { m with prev := some i }
    | none => q.modifyEnds queue fun e => { e with tail := some i }
  q.modifyEnds queue fun e => { e with len := e.len + 1 }

/-- Gives an item a slot that is in no queue yet. -/
def allocate (q : Queues α) (queue : Queue) (item : α) : Slot × Queues α :=
  let node : Node α := ⟨item, queue, none, none⟩
  match q.free with
  | i :: free => (i, { q with nodes := q.nodes.setIfInBounds i (some node), free := free })
  | [] => (q.nodes.size, { q with nodes := q.nodes.push (some node) })

/-- Inserts an item in front of `before`, or at the back. The slot `before` has to be in the queue. -/
def insertBefore (q : Queues α) (queue : Queue) (before : Option Slot) (item : α) :
    Slot × Queues α :=
  let (i, q) := q.allocate queue item
  (i, q.link i queue before)

/-- Moves a node in front of `before`, or to the back. The node keeps its slot; it stays where it is
if it would be put in front of itself. -/
def moveBefore (q : Queues α) (i : Slot) (queue : Queue) (before : Option Slot) : Queues α :=
  if (q.node? i).isNone || before == some i then q
  else (q.unlink i).link i queue before

def remove (q : Queues α) (i : Slot) : Option α × Queues α :=
  match q.node? i with
  | none => (none, q)
  | some n =>
    let q := q.unlink i
    (some n.item, { q with nodes := q.nodes.setIfInBounds i none, free := i :: q.free })

/-- The slots and items from a slot on, at most `n` of them. -/
def walk (q : Queues α) : Nat → Option Slot → List (Slot × α)
  | n + 1, some i =>
    match q.node? i with
    | none => []
    | some m => (i, m.item) :: q.walk n m.next
  | _, _ => []

/-- The slots from a slot backwards, at most `n` of them. -/
def walkBack (q : Queues α) : Nat → Option Slot → List Slot
  | n + 1, some i => i :: q.walkBack n (q.prev? i)
  | _, _ => []

/-- The slots and items of a queue, front to back. -/
def toList (q : Queues α) (queue : Queue) : List (Slot × α) :=
  q.walk q.nodes.size (q.front? queue)

def slotsFromBack (q : Queues α) (queue : Queue) : List Slot :=
  q.walkBack q.nodes.size (q.back? queue)

def items (q : Queues α) (queue : Queue) : List α := (q.toList queue).map (·.2)

/-- The slot in front of which a new entry goes so that it follows the last entry with `p`: the front
where no entry has `p`, and none (the back) where the last one has. -/
def slotAfterLast (p : α → Bool) (entries : List (Slot × α)) : Option Slot :=
  (entries.reverse.takeWhile fun e => !p e.2).getLast?.map (·.1)

end Queues

end CompactionLeasing
