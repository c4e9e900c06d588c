import Mathlib.Data.List.Perm.Subperm
import Ecos.Lib.Splice

namespace Ecos.Inocache

open Ring

/-- `CYGNUM_IO_FILEIO_MAX_INODE_CACHE_DEAD` and the width of a `cyg_atomic`. -/
structure Config where
  max : Nat
  bits : Nat
  some' : 0 < max
  wide : 0 < bits

/-- A `cyg_inodecache` with the inodes of its heap: which have been allocated and not freed, their pointers, `i_ino` and
`i_count`. -/
structure State (c : Config) (α : Type*) where
  nodes : Nodes α
  number : α → UInt32
  count : α → BitVec c.bits
  inodes : List α
  head : Option α
  freeable : Option α
  freeablelistlen : BitVec c.bits

variable {c : Config} {α : Type*} [DecidableEq α]

/-- `cyg_inodecache_init`. -/
def init (nodes : Nodes α) (number : α → UInt32) (count : α → BitVec c.bits) : State c α where
  nodes := nodes
  number := number
  count := count
  inodes := []
  head := none
  freeable := none
  freeablelistlen := 0

/-- `insert_in_list`: the pointers; the list then starts with `ino`. -/
def insertInList (n : Nodes α) (i : Option α) (ino : α) : Nodes α :=
  match i with
  | none => ⟨Function.update n.next ino ino, Function.update n.prev ino ino⟩
  | some here =>
    let n := { n with prev := Function.update n.prev ino (n.prev here) }
    let n := { n with next := Function.update n.next ino here }
    let n := { n with prev := Function.update n.prev here ino }
    { n with next := Function.update n.next (n.prev ino) ino }

/-- The neighbours of `x` pointed at each other, as `cyg_inode_get` and `cyg_inode_put` do it. -/
def unlink (n : Nodes α) (x : α) : Nodes α :=
  let n := { n with next := Function.update n.next (n.prev x) (n.next x) }
  { n with prev := Function.update n.prev (n.next x) (n.prev x) }

/-- `cyg_inode_create`, with what `malloc` returns and the number that the file system then writes into the inode. -/
def State.create (s : State c α) (fresh : Option α) (number : UInt32) : State c α :=
  match fresh with
  | none => s
  | some ni =>
    { s with
      nodes := insertInList s.nodes s.head ni
      number := Function.update s.number ni number
      count := Function.update s.count ni 1
      inodes := ni :: s.inodes
      head := some ni }

/-- A loop of `cyg_inode_get` over a ring, from `tmp` on: the inode with the number, if there is one. Without an end
in `fuel` turns there is no result. -/
def State.find (s : State c α) (number : UInt32) (head : α) : Nat → α → Option (Option α)
  | 0, _ => none
  | fuel + 1, tmp =>
    if s.number tmp = number then some (some tmp)
    else if s.nodes.next tmp = head then some none
    else s.find number head fuel (s.nodes.next tmp)

/-- The search from a head pointer. No ring has more inodes than there are: a longer loop does not end, or reads freed
memory. -/
def State.lookup (s : State c α) (number : UInt32) (list : Option α) : Option (Option α) :=
  match list with
  | none => some none
  | some head => s.find number head s.inodes.length head

def State.get (s : State c α) (number : UInt32) (fresh : Option α) (number' : UInt32) : Option (State c α) := do
  match ← s.lookup number s.head with
  | some tmp => some { s with count := Function.update s.count tmp (s.count tmp + 1) }
  | none =>
    match ← s.lookup number s.freeable with
    | some tmp =>
      let count := Function.update s.count tmp (s.count tmp + 1)
      let len := s.freeablelistlen - 1
      let nodes := if len ≠ 0 then unlink s.nodes tmp else s.nodes
      let freeable := if len ≠ 0 then s.freeable else none
      some { s with
        nodes := insertInList nodes s.head tmp
        count := count
        head := some tmp
        freeable := freeable
        freeablelistlen := len }
    | none => some (s.create fresh number')

def State.put (s : State c α) (ino : α) : State c α :=
  let count := Function.update s.count ino (s.count ino - 1)
  if count ino = 0 then
    let head := if s.nodes.next ino = ino then none else s.head
    let nodes := if s.nodes.next ino = ino then s.nodes else unlink s.nodes ino
    let len := s.freeablelistlen + 1
    let nodes := insertInList nodes s.freeable ino
    if c.max < len.toNat then
      let prev := nodes.prev ino
      let nodes := { nodes with next := Function.update nodes.next (nodes.prev prev) ino }
      let nodes := { nodes with prev := Function.update nodes.prev ino (nodes.prev prev) }
      { s with
        nodes := nodes
        count := count
        inodes := s.inodes.erase prev
        head := head
        freeable := some ino
        freeablelistlen := len }
    else
      { s with nodes := nodes, count := count, head := head, freeable := some ino, freeablelistlen := len }
  else { s with count := count }

/-- What a file system does with its cache. -/
inductive Action (α : Type*)
  | create (fresh : Option α) (number : UInt32)
  | get (number : UInt32) (fresh : Option α) (number' : UInt32)
  | put (ino : α)

def State.step (s : State c α) : Action α → Option (State c α)
  | .create fresh number => some (s.create fresh number)
  | .get number fresh number' => s.get number fresh number'
  | .put ino => some (s.put ino)

/-- The loops of `cyg_inodecache_destroy`: the inodes in the order in which they are freed, as long as the memory of
an inode that has been freed is left as it is. A pointer of an inode is never `NULL`. -/
def destroyLoop (n : Nodes α) : Nat → Option α → Option (List α)
  | _, none => some []
  | 0, some _ => none
  | fuel + 1, some tmp => (destroyLoop n fuel (some (n.next tmp))).map (tmp :: ·)

def State.destroy (s : State c α) (fuel : Nat) : Option (List α) := do
  let live ← destroyLoop s.nodes fuel s.head
  let dead ← destroyLoop s.nodes fuel s.freeable
  some (live ++ dead)

/-- The rings from the two heads are what they are to be. -/
structure Holds (s : State c α) (live dead : List α) : Prop where
  head : s.head = live.head?
  freeable : s.freeable = dead.head?
  liveRing : s.nodes.IsRing live
  deadRing : s.nodes.IsRing dead
  liveOnce : live.Nodup
  deadOnce : dead.Nodup
  referenced : ∀ x, x ∈ live ↔ x ∈ s.inodes ∧ s.count x ≠ 0
  unreferenced : ∀ x, x ∈ dead ↔ x ∈ s.inodes ∧ s.count x = 0
  len : s.freeablelistlen.toNat = dead.length
  few : s.freeablelistlen.toNat ≤ c.max

def Good (s : State c α) : Prop := ∃ live dead, Holds s live dead

/-- `cyg_inodecache_destroy` ends and has freed each inode once. -/
def Destroys (s : State c α) : Prop :=
  ∃ fuel freed, s.destroy fuel = some freed ∧ freed.Nodup ∧ ∀ x, x ∈ freed ↔ x ∈ s.inodes

/-- `malloc` returns memory that is not in use, and only references are put that there are. -/
def State.Legal (s : State c α) : Action α → Prop
  | .create fresh _ => ∀ x ∈ fresh, x ∉ s.inodes
  | .get _ fresh _ => ∀ x ∈ fresh, x ∉ s.inodes
  | .put ino => ino ∈ s.inodes ∧ s.count ino ≠ 0

/-- All actions of a run are legal where they happen. -/
def State.LegalRun (s : State c α) : List (Action α) → Prop
  | [] => True
  | a :: rest => s.Legal a ∧ ∀ s', s.step a = some s' → s'.LegalRun rest

/-- What makes an action harmless: no count overflows; a dead inode comes back from behind the head of its list or
alone; a live one dies behind the head of its list or alone, and with place in the list of the dead. -/
def State.Fine (s : State c α) : Action α → Prop
  | .create _ _ => True
  | .get number _ _ =>
    (∀ x, s.lookup number s.head = some (some x) → s.count x + 1 ≠ 0) ∧
    ∀ x, s.lookup number s.head = some none → s.lookup number s.freeable = some (some x) → s.freeable = some x →
      s.nodes.next x = x
  | .put ino => s.count ino = 1 →
    (s.head = some ino → s.nodes.next ino = ino) ∧ s.freeablelistlen.toNat < c.max ∧ s.freeablelistlen + 1 ≠ 0

end Ecos.Inocache
