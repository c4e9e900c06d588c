import Mathlib.Data.Finmap
import Ecos.Lib.Layers
import Ecos.Lib.Machine

/-! `host/libcdl/transact.cxx`: transactions on a CDL configuration, their sub-transactions, and the conflicts that
belong to them. Nodes and simple values are abstract. Conflicts and transactions are numbered in the order in which they
are made, and a number is never used again. -/

namespace Ecos.Cdl

inductive CdlValueFlavor
  | none
  | bool
  | boolData
  | data
  deriving DecidableEq

/-- Numbered in this order, each overrides the ones before it. -/
inductive CdlValueSource
  | default
  | inferred
  | wizard
  | user
  deriving DecidableEq

def CdlValueSource.index : CdlValueSource → Nat
  | default => 0
  | inferred => 1
  | wizard => 2
  | user => 3

structure CdlValue (S : Type*) where
  flavor : CdlValueFlavor
  currentSource : CdlValueSource
  sourceValid : CdlValueSource → Bool
  enabled : CdlValueSource → Bool
  values : CdlValueSource → S

namespace CdlValue
variable {S : Type*}

def getSource (value : CdlValue S) : CdlValueSource := value.currentSource

def isEnabled (value : CdlValue S) : Bool := value.enabled value.currentSource

def getSimpleValue (value : CdlValue S) : S := value.values value.currentSource

/-- What `set_whole_value` takes for a change of the boolean part. -/
def boolChanged (old new : CdlValue S) : Bool :=
  (old.flavor = .bool ∨ old.flavor = .boolData) ∧ old.isEnabled ≠ new.isEnabled

/-- What `set_whole_value` takes for a change. -/
def changed [BEq S] (old new : CdlValue S) : Bool :=
  boolChanged old new ∨
    (old.flavor = .boolData ∨ old.flavor = .data) ∧ (old.getSimpleValue != new.getSimpleValue) = true

end CdlValue

variable {N S : Type*} [DecidableEq N]

structure Conflict (N S : Type*) where
  node : N
  property : Nat
  transaction : Option Nat
  structural : Bool
  noSolution : Bool
  solution : List (N × CdlValue S)
  solutionReferences : Finset N

namespace Conflict

def hasKnownSolution (conf : Conflict N S) : Bool := !conf.solution.isEmpty

def clearSolution (conf : Conflict N S) : Conflict N S :=
  { conf with noSolution := false, solution := [], solutionReferences := ∅ }

def updateSolutionValidity (v : N) (conf : Conflict N S) : Conflict N S :=
  if v ∈ conf.solutionReferences then conf.clearSolution else conf

end Conflict

/-- The containers of a transaction. Those for conflicts come in pairs, the second of each for the structural ones. -/
structure Transaction (N S : Type*) where
  parent : Option Nat
  conflict : Option Nat
  changes : AList fun _ : N => CdlValue S
  valueChanges : List N
  activeChanges : List N
  activated : Finset N
  deactivated : Finset N
  newConflicts : Bool → List Nat
  deletedConflicts : Bool → List Nat
  resolvedConflicts : List Nat
  globalConflictsWithSolutions : List Nat

namespace Transaction

/-- As the constructor leaves it. -/
def made (parent conflict : Option Nat) : Transaction N S :=
  ⟨parent, conflict, ∅, [], [], ∅, ∅, fun _ => [], fun _ => [], [], []⟩

def pushNew (k : Bool) (c : Nat) (t : Transaction N S) : Transaction N S :=
  { t with newConflicts := Function.update t.newConflicts k (t.newConflicts k ++ [c]) }

def eraseNew (k : Bool) (c : Nat) (t : Transaction N S) : Transaction N S :=
  { t with newConflicts := Function.update t.newConflicts k ((t.newConflicts k).erase c) }

def pushDeleted (k : Bool) (c : Nat) (t : Transaction N S) : Transaction N S :=
  { t with deletedConflicts := Function.update t.deletedConflicts k (t.deletedConflicts k ++ [c]) }

def pushResolved (c : Nat) (t : Transaction N S) : Transaction N S :=
  { t with resolvedConflicts := t.resolvedConflicts ++ [c] }

/-- The two lists that are searched before a conflict is added. -/
def noteResolved (c : Nat) (t : Transaction N S) : Transaction N S :=
  if c ∈ t.resolvedConflicts then t else t.pushResolved c

def noteGlobal (c : Nat) (t : Transaction N S) : Transaction N S :=
  if c ∈ t.globalConflictsWithSolutions then t
  else { t with globalConflictsWithSolutions := t.globalConflictsWithSolutions ++ [c] }

def eraseGlobal (c : Nat) (t : Transaction N S) : Transaction N S :=
  { t with globalConflictsWithSolutions := t.globalConflictsWithSolutions.erase c }

/-- A conflict that a sub-transaction has cleared: the parent's own one goes, others are passed on. -/
def takeDeleted (k : Bool) (c : Nat) (t : Transaction N S) : Transaction N S :=
  if c ∈ t.newConflicts k then t.eraseNew k c else t.pushDeleted k c

def insertChange (change : Sigma fun _ : N => CdlValue S) (t : Transaction N S) : Transaction N S :=
  { t with changes := t.changes.insert change.1 change.2 }

def setActive (n : N) (state : Bool) (t : Transaction N S) : Transaction N S :=
  { t with
    activated := if state then insert n t.activated else t.activated.erase n
    deactivated := if state then t.deactivated.erase n else insert n t.deactivated
    activeChanges := t.activeChanges ++ [n] }

/-- The nodes of a sub-transaction: first the active ones, then the inactive. -/
def mergeActive (sub t : Transaction N S) : Transaction N S :=
  { t with
    activated := (t.activated ∪ sub.activated) \ sub.deactivated
    deactivated := t.deactivated \ sub.activated ∪ sub.deactivated }

/-- What a commit leaves behind. The queues are not looked at. -/
def committed (t : Transaction N S) : Transaction N S :=
  { made t.parent t.conflict with valueChanges := t.valueChanges, activeChanges := t.activeChanges }

/-- What `cancel` leaves behind. -/
def cancelled (t : Transaction N S) : Transaction N S := made t.parent t.conflict

/-- What the destructor checks of the conflicts and changes. -/
def Empty (t : Transaction N S) : Prop :=
  t.changes.entries.isEmpty = true ∧ t.activated = ∅ ∧ t.deactivated = ∅ ∧ (∀ k, t.newConflicts k = []) ∧
    (∀ k, t.deletedConflicts k = []) ∧ t.resolvedConflicts = [] ∧ t.globalConflictsWithSolutions = []

end Transaction

/-- A loaded configuration with the transactions on it. `stale` marks the transactions one of whose siblings has been
committed since they were made, and `fault` that memory of a conflict was used after its destruction. -/
structure Config (N S : Type*) where
  valuable : N → Bool
  modifiable : N → Bool
  value : N → CdlValue S
  active : N → Bool
  conflicts : Bool → List Nat
  transaction : Option Nat
  conf : Nat → Conflict N S
  live : Nat → Bool
  nextConflict : Nat
  trans : Nat → Transaction N S
  alive : Nat → Bool
  stale : Nat → Bool
  nextTransaction : Nat
  fault : Bool

namespace Config

def modify (s : Config N S) (t : Nat) (f : Transaction N S → Transaction N S) : Config N S :=
  { s with trans := Function.update s.trans t (f (s.trans t)) }

def modifyConf (s : Config N S) (c : Nat) (f : Conflict N S → Conflict N S) : Config N S :=
  { s with conf := Function.update s.conf c (f (s.conf c)) }

/-- The conflict is looked at. -/
def touch (s : Config N S) (c : Nat) : Config N S := { s with fault := s.fault || !s.live c }

def destroy (s : Config N S) (c : Nat) : Config N S :=
  { s with fault := s.fault || !s.live c, live := Function.update s.live c false }

/-- The transaction, its parent and so on. A parent is older than its children. -/
def lineageFrom (s : Config N S) : Nat → Nat → List Nat
  | 0, t => [t]
  | n + 1, t => t :: match (s.trans t).parent with
    | none => []
    | some p => s.lineageFrom n p

def lineage (s : Config N S) (t : Nat) : List Nat := s.lineageFrom t t

/-! Values -/

/-- Each transaction that is asked notes the valuable with its conflict. -/
def access (v : N) : List Nat → Config N S → CdlValue S × Config N S
  | [], s => (s.value v, s)
  | a :: above, s =>
    let s := match (s.trans a).conflict with
      | none => s
      | some c => (s.touch c).modifyConf c fun conf =>
        { conf with solutionReferences := insert v conf.solutionReferences }
    match (s.trans a).changes.lookup v with
    | some value => (value, s)
    | none => s.access v above

def getWholeValue (s : Config N S) (t : Nat) (v : N) : CdlValue S := (s.access v (s.lineage t)).1

/-- The interfaces that the valuable implements are recalculated afterwards, by further calls. -/
def setWholeValue [BEq S] (s : Config N S) (t : Nat) (v : N) (old new : CdlValue S) : Config N S :=
  s.modify t fun t => { t with
    valueChanges := if CdlValue.changed old new ∧ v ∉ t.valueChanges then t.valueChanges ++ [v] else t.valueChanges
    changes := t.changes.insert v new }

/-! Activity -/

def isActive (s : Config N S) (t : Nat) (n : N) : Bool := go (s.lineage t)
where
  go : List Nat → Bool
    | [] => s.active n
    | a :: above =>
      if n ∈ (s.trans a).activated then true
      else if n ∈ (s.trans a).deactivated then false
      else go above

def setActive (s : Config N S) (t : Nat) (n : N) (state : Bool) : Config N S := s.modify t (·.setActive n state)

/-! Conflicts -/

def hasConflictBeenCleared (s : Config N S) (t c : Nat) : Bool :=
  (s.lineage t).any fun a => c ∈ (s.trans a).deletedConflicts (s.conf c).structural

/-- The conflicts the transaction knows about, cleared or not, those of the transactions first. -/
def listed (s : Config N S) (t : Nat) (k : Bool) : List Nat :=
  (s.lineage t).flatMap (fun a => (s.trans a).newConflicts k) ++ s.conflicts k

/-- `get_conflicts` and `get_structural_conflicts`, for a property or for any. -/
def getConflicts (s : Config N S) (t : Nat) (k : Bool) (node : N) (property : Option Nat) (fn : Nat → Bool) : List Nat :=
  (s.listed t k).filter fun c =>
    (s.conf c).node = node ∧ (property = none ∨ property = some (s.conf c).property) ∧
      s.hasConflictBeenCleared t c = false ∧ fn c = true

/-- The constructor of a conflict. -/
def newConflict (s : Config N S) (t : Nat) (node : N) (property : Nat) (k : Bool) : Config N S :=
  let c := s.nextConflict
  let s := { s with
    conf := Function.update s.conf c ⟨node, property, some t, k, false, [], ∅⟩
    live := Function.update s.live c true
    nextConflict := c + 1 }
  s.modify t (·.pushNew k c)

def clearConflict (s : Config N S) (t c : Nat) : Config N S :=
  let s := s.touch c
  let k := (s.conf c).structural
  if (s.conf c).transaction = some t then (s.modify t (·.eraseNew k c)).destroy c
  else s.modify t (·.pushDeleted k c)

def clearConflicts (s : Config N S) (t : Nat) (k : Bool) (node : N) (property : Option Nat) (fn : Nat → Bool) :
    Config N S :=
  (s.getConflicts t k node property fn).foldl (fun s c => s.clearConflict t c) s

/-! Solutions -/

def updateSolutionValidity (v : N) (s : Config N S) (c : Nat) : Config N S :=
  (s.touch c).modifyConf c (·.updateSolutionValidity v)

/-- The same for a global conflict, which is only listed while it has a solution. -/
def updateGlobal (t : Nat) (v : N) (s : Config N S) (c : Nat) : Config N S :=
  let s := s.updateSolutionValidity v c
  if (s.conf c).hasKnownSolution then s else s.modify t (·.eraseGlobal c)

/-- A value has changed in the transaction. -/
def updateSolutions (s : Config N S) (t : Nat) (v : N) : Config N S :=
  let s := ((s.trans t).newConflicts false).foldl (updateSolutionValidity v) s
  (s.trans t).globalConflictsWithSolutions.foldl (updateGlobal t v) s

/-- `propagate`, for the first value change. The update handlers follow, by further calls. -/
def propagateValue (s : Config N S) (t : Nat) : Config N S :=
  match (s.trans t).valueChanges with
  | [] => s
  | v :: vs => (s.modify t fun t => { t with valueChanges := vs }).updateSolutions t v

/-- `propagate`, for the first change of activity when there is no value change. -/
def propagateActive (s : Config N S) (t : Nat) : Config N S :=
  s.modify t fun t => { t with activeChanges := t.activeChanges.tail }

/-! Transactions come and go -/

/-- `make` for the toplevel. -/
def makeTop (s : Config N S) : Config N S :=
  { s with
    transaction := some s.nextTransaction
    trans := Function.update s.trans s.nextTransaction (.made none none)
    alive := Function.update s.alive s.nextTransaction true
    stale := Function.update s.stale s.nextTransaction false
    nextTransaction := s.nextTransaction + 1 }

/-- `make` for a sub-transaction. -/
def makeSub (s : Config N S) (t : Nat) (conflict : Option Nat) : Config N S :=
  { s with
    trans := Function.update s.trans s.nextTransaction (.made (some t) conflict)
    alive := Function.update s.alive s.nextTransaction true
    stale := Function.update s.stale s.nextTransaction false
    nextTransaction := s.nextTransaction + 1 }

/-- The destructor. -/
def delete (s : Config N S) (t : Nat) : Config N S :=
  { s with
    alive := Function.update s.alive t false
    transaction := if (s.trans t).parent = none then none else s.transaction }

/-! Cancel -/

def cancelResolved (t : Nat) (s : Config N S) (c : Nat) : Config N S :=
  let s := s.touch c
  if (s.conf c).transaction = some t then s.destroy c else s

def clearSolution (s : Config N S) (c : Nat) : Config N S := (s.touch c).modifyConf c Conflict.clearSolution

def cancel (s : Config N S) (t : Nat) : Config N S :=
  let this := s.trans t
  let s := (this.newConflicts false).foldl destroy s
  let s := (this.newConflicts true).foldl destroy s
  let s := this.resolvedConflicts.foldl (cancelResolved t) s
  let s := this.globalConflictsWithSolutions.foldl clearSolution s
  s.modify t Transaction.cancelled

/-! Commit -/

/-- A resolved conflict that belongs to the sub-transaction belongs to the parent from now on. -/
def commitResolved (t p : Nat) (s : Config N S) (c : Nat) : Config N S :=
  let s := (s.touch c).modify p (·.pushResolved c)
  if (s.conf c).transaction = some t then s.modifyConf c fun conf => { conf with transaction := some p } else s

def commitGlobal (p : Nat) (s : Config N S) (c : Nat) : Config N S := (s.touch c).modify p (·.noteGlobal c)

/-- The conflict that the sub-transaction was made for is kept with the resolved ones. -/
def commitDeleted (conflict : Option Nat) (p : Nat) (s : Config N S) (c : Nat) : Config N S :=
  let canDelete : Bool := c ∈ (s.trans p).newConflicts false
  let s := (s.touch c).modify p (·.takeDeleted false c)
  let s := if (s.conf c).transaction = none then s.modify p (·.eraseGlobal c) else s
  if conflict = some c then s.modify p (·.noteResolved c)
  else if canDelete then s.destroy c
  else s

def commitDeletedStructural (p : Nat) (s : Config N S) (c : Nat) : Config N S :=
  let canDelete : Bool := c ∈ (s.trans p).newConflicts true
  let s := (s.touch c).modify p (·.takeDeleted true c)
  if canDelete then s.destroy c else s

def commitChange (p : Nat) (s : Config N S) (change : Sigma fun _ : N => CdlValue S) : Config N S :=
  (s.modify p (·.insertChange change)).updateSolutions p change.1

def commitNew (k : Bool) (p : Nat) (s : Config N S) (c : Nat) : Config N S :=
  ((s.touch c).modify p (·.pushNew k c)).modifyConf c fun conf => { conf with transaction := some p }

/-- All that the sub-transaction holds goes to the parent. -/
def transfer (s : Config N S) (t p : Nat) : Config N S :=
  let this := s.trans t
  let s := this.resolvedConflicts.foldl (commitResolved t p) s
  let s := this.globalConflictsWithSolutions.foldl (commitGlobal p) s
  let s := (this.deletedConflicts false).foldl (commitDeleted this.conflict p) s
  let s := (this.deletedConflicts true).foldl (commitDeletedStructural p) s
  let s := this.changes.entries.foldl (commitChange p) s
  let s := (this.newConflicts false).foldl (commitNew false p) s
  let s := (this.newConflicts true).foldl (commitNew true p) s
  s.modify p this.mergeActive

/-- `commit` of a sub-transaction. -/
def commitSub (s : Config N S) (t p : Nat) : Config N S :=
  let s := (s.transfer t p).modify t Transaction.committed
  { s with stale := fun u => s.stale u || (s.alive u && (s.trans u).parent = some p && u ≠ t) }

def commitTopNew (k : Bool) (s : Config N S) (c : Nat) : Config N S :=
  let s := { s.touch c with conflicts := Function.update s.conflicts k (s.conflicts k ++ [c]) }
  s.modifyConf c fun conf => { conf.clearSolution with transaction := none }

def commitTopResolved (s : Config N S) (c : Nat) : Config N S :=
  let s := s.touch c
  if (s.conf c).transaction = none then s else s.destroy c

def commitTopDeleted (k : Bool) (s : Config N S) (c : Nat) : Config N S :=
  { s with conflicts := Function.update s.conflicts k ((s.conflicts k).erase c) }.destroy c

/-- `commit` of the toplevel's transaction. -/
def commitTop (s : Config N S) (t : Nat) : Config N S :=
  let this := s.trans t
  let s := { s with value := fun v => (this.changes.lookup v).getD (s.value v) }
  let s := (this.newConflicts false).foldl (commitTopNew false) s
  let s := (this.newConflicts true).foldl (commitTopNew true) s
  let s := this.resolvedConflicts.foldl commitTopResolved s
  let s := (this.deletedConflicts false).foldl (commitTopDeleted false) s
  let s := (this.deletedConflicts true).foldl (commitTopDeleted true) s
  let s := this.globalConflictsWithSolutions.foldl clearSolution s
  let s := { s with active := fun n => if n ∈ this.deactivated then false
                                       else if n ∈ this.activated then true
                                       else s.active n }
  s.modify t Transaction.committed

def commit (s : Config N S) (t : Nat) : Config N S :=
  match (s.trans t).parent with
  | some p => s.commitSub t p
  | none => s.commitTop t

/-! Inference -/

/-- With the default of `inference_override`, which is `Inferred`. -/
def userConfirmationRequired (s : Config N S) (t p : Nat) : Bool :=
  (∃ change ∈ (s.trans t).changes.entries,
    CdlValueSource.inferred.index < (s.getWholeValue p change.1).getSource.index) ∨
  (∃ n ∈ (s.trans t).deactivated, s.valuable n = true ∧
    CdlValueSource.inferred.index < (s.getWholeValue p n).getSource.index ∧ (s.getWholeValue p n).isEnabled = true)

/-- The last part of `resolve`: no solution was found. -/
def resolveFailed (s : Config N S) (t c : Nat) : Config N S :=
  let s := (s.cancel t).delete t
  (s.touch c).modifyConf c fun conf => { conf with noSolution := true }

def saveSolution (s : Config N S) (t c : Nat) : Config N S :=
  let found := (s.trans t).changes.entries.filter fun change => s.modifiable change.1
  let s := (s.touch c).modifyConf c fun conf =>
    { conf with solution := conf.solution ++ found.map fun change => (change.1, change.2) }
  s.cancel t

/-- The last part of `resolve`: the solution is for the user to look at. -/
def resolveSaved (s : Config N S) (t p c : Nat) : Config N S :=
  let s := (((s.saveSolution t c).cancel t).delete t).touch c
  if (s.conf c).transaction = none then s.modify p (·.noteGlobal c) else s

/-- The last part of `resolve`: the solution is applied. -/
def resolveApplied (s : Config N S) (t c : Nat) : Config N S :=
  let found := (s.trans t).changes.entries
  let s := (s.touch c).modifyConf c fun conf =>
    { conf with
      solutionReferences := ∅
      noSolution := false
      solution := conf.solution ++ found.map fun change => (change.1, change.2) }
  (s.commit t).delete t

/-! Runs -/

/-- No transaction has been made from it, or none of them is left. -/
def Leaf (s : Config N S) (t : Nat) : Prop :=
  ∀ u < s.nextTransaction, s.alive u = true → (s.trans u).parent ≠ some t

/-- A transaction that may be worked on: the innermost one of its chain. -/
def Innermost (s : Config N S) (t : Nat) : Prop := s.alive t = true ∧ s.stale t = false ∧ s.Leaf t

/-- The other children of the parent have no children of their own. After the commit they are only cancelled. -/
def SiblingsLeft (s : Config N S) (t : Nat) : Prop :=
  ∀ u < s.nextTransaction, s.alive u = true → (s.trans u).parent = (s.trans t).parent →
    (s.trans t).parent ≠ none → s.Leaf u

end Config

inductive Act (N S : Type*)
  | getWholeValue (t : Nat) (v : N)
  | setWholeValue (t : Nat) (v : N) (new : CdlValue S)
  | setActive (t : Nat) (n : N) (state : Bool)
  | newConflict (t : Nat) (node : N) (property : Nat) (k : Bool)
  | clearConflict (t c : Nat)
  | propagateValue (t : Nat)
  | propagateActive (t : Nat)
  | makeTop
  | makeSub (t : Nat) (conflict : Option Nat)
  | cancel (t : Nat)
  | commit (t : Nat)
  | delete (t : Nat)
  | resolveFailed (t c : Nat)
  | resolveSaved (t p c : Nat)
  | resolveApplied (t c : Nat)

namespace Config

def act [BEq S] (s : Config N S) : Act N S → Config N S
  | .getWholeValue t v => (s.access v (s.lineage t)).2
  | .setWholeValue t v new => (s.access v (s.lineage t)).2.setWholeValue t v (s.getWholeValue t v) new
  | .setActive t n state => s.setActive t n state
  | .newConflict t node property k => s.newConflict t node property k
  | .clearConflict t c => s.clearConflict t c
  | .propagateValue t => s.propagateValue t
  | .propagateActive t => s.propagateActive t
  | .makeTop => s.makeTop
  | .makeSub t conflict => s.makeSub t conflict
  | .cancel t => s.cancel t
  | .commit t => s.commit t
  | .delete t => s.delete t
  | .resolveFailed t c => s.resolveFailed t c
  | .resolveSaved t p c => s.resolveSaved t p c
  | .resolveApplied t c => s.resolveApplied t c

/-- A sub-transaction is made for nothing in particular, for what its parent was made for, or for a conflict that is
the parent's own or global. A solution is only saved for the toplevel's transaction, and only for the conflicts with an
inference engine, none of which is structural. -/
def Enabled (s : Config N S) : Act N S → Prop
  | .getWholeValue t _ => s.alive t = true ∧ s.stale t = false
  | .setWholeValue t _ _ | .setActive t _ _ | .newConflict t _ _ _ | .propagateValue t | .propagateActive t =>
    s.Innermost t
  | .clearConflict t c =>
    s.Innermost t ∧ c ∈ s.listed t (s.conf c).structural ∧ s.hasConflictBeenCleared t c = false
  | .makeTop => s.transaction = none
  | .makeSub t conflict => s.alive t = true ∧ s.stale t = false ∧
    (conflict = (s.trans t).conflict ∨ ∀ c ∈ conflict, s.live c = true ∧
      ((s.conf c).transaction = none ∨ (s.conf c).transaction = some t))
  | .cancel t => s.alive t = true ∧ s.Leaf t
  | .commit t => s.Innermost t ∧ s.SiblingsLeft t
  | .delete t => s.alive t = true ∧ s.Leaf t ∧ (s.trans t).Empty
  | .resolveFailed t c => s.Innermost t ∧ (s.trans t).parent ≠ none ∧ (s.trans t).conflict = some c
  | .resolveSaved t p c => s.Innermost t ∧ (s.trans t).parent = some p ∧ (s.trans p).parent = none ∧
    (s.trans t).conflict = some c ∧ (s.conf c).structural = false ∧ c ∈ (s.trans t).deletedConflicts false ∧
    (s.conf c).hasKnownSolution = false ∧ s.userConfirmationRequired t p = true
  | .resolveApplied t c => s.Innermost t ∧ s.SiblingsLeft t ∧ (s.trans t).parent ≠ none ∧
    (s.trans t).conflict = some c ∧ c ∈ (s.trans t).deletedConflicts (s.conf c).structural

instance (s : Config N S) (t : Nat) : Decidable (s.Leaf t) :=
  inferInstanceAs (Decidable (∀ u < s.nextTransaction, s.alive u = true → (s.trans u).parent ≠ some t))

instance (s : Config N S) (t : Nat) : Decidable (s.Innermost t) :=
  inferInstanceAs (Decidable (s.alive t = true ∧ s.stale t = false ∧ s.Leaf t))

instance (s : Config N S) (t : Nat) : Decidable (s.SiblingsLeft t) :=
  inferInstanceAs (Decidable (∀ u < s.nextTransaction, s.alive u = true → (s.trans u).parent = (s.trans t).parent →
    (s.trans t).parent ≠ none → s.Leaf u))

instance (t : Transaction N S) : Decidable t.Empty :=
  inferInstanceAs (Decidable (t.changes.entries.isEmpty = true ∧ t.activated = ∅ ∧ t.deactivated = ∅ ∧
    (∀ k, t.newConflicts k = []) ∧ (∀ k, t.deletedConflicts k = []) ∧ t.resolvedConflicts = [] ∧
    t.globalConflictsWithSolutions = []))

instance decidableEnabled (s : Config N S) : (e : Act N S) → Decidable (s.Enabled e)
  | .getWholeValue t _ => inferInstanceAs (Decidable (s.alive t = true ∧ s.stale t = false))
  | .setWholeValue t _ _ => inferInstanceAs (Decidable (s.Innermost t))
  | .setActive t _ _ => inferInstanceAs (Decidable (s.Innermost t))
  | .newConflict t _ _ _ => inferInstanceAs (Decidable (s.Innermost t))
  | .propagateValue t => inferInstanceAs (Decidable (s.Innermost t))
  | .propagateActive t => inferInstanceAs (Decidable (s.Innermost t))
  | .clearConflict t c => inferInstanceAs (Decidable (s.Innermost t ∧ c ∈ s.listed t (s.conf c).structural ∧
      s.hasConflictBeenCleared t c = false))
  | .makeTop => inferInstanceAs (Decidable (s.transaction = none))
  | .makeSub t conflict => inferInstanceAs (Decidable (s.alive t = true ∧ s.stale t = false ∧
      (conflict = (s.trans t).conflict ∨ ∀ c ∈ conflict, s.live c = true ∧
        ((s.conf c).transaction = none ∨ (s.conf c).transaction = some t))))
  | .cancel t => inferInstanceAs (Decidable (s.alive t = true ∧ s.Leaf t))
  | .commit t => inferInstanceAs (Decidable (s.Innermost t ∧ s.SiblingsLeft t))
  | .delete t => inferInstanceAs (Decidable (s.alive t = true ∧ s.Leaf t ∧ (s.trans t).Empty))
  | .resolveFailed t c => inferInstanceAs (Decidable (s.Innermost t ∧ (s.trans t).parent ≠ none ∧
      (s.trans t).conflict = some c))
  | .resolveSaved t p c => inferInstanceAs (Decidable (s.Innermost t ∧ (s.trans t).parent = some p ∧
      (s.trans p).parent = none ∧ (s.trans t).conflict = some c ∧ (s.conf c).structural = false ∧
      c ∈ (s.trans t).deletedConflicts false ∧ (s.conf c).hasKnownSolution = false ∧
      s.userConfirmationRequired t p = true))
  | .resolveApplied t c => inferInstanceAs (Decidable (s.Innermost t ∧ s.SiblingsLeft t ∧ (s.trans t).parent ≠ none ∧
      (s.trans t).conflict = some c ∧ c ∈ (s.trans t).deletedConflicts (s.conf c).structural))

/-- A loaded configuration on which no transaction is under way. -/
structure Start (s : Config N S) : Prop where
  transaction : s.transaction = none
  alive : ∀ t, s.alive t = false
  conflicts : ∀ k c, c ∈ s.conflicts k ↔ s.live c = true ∧ (s.conf c).structural = k
  nodup : ∀ k, (s.conflicts k).Nodup
  live : ∀ c, s.live c = true → (s.conf c).transaction = none ∧ c < s.nextConflict
  fault : s.fault = false

/-- All runs. -/
def system (N S : Type*) [DecidableEq N] [BEq S] : Machine (Config N S) := .guided Start Enabled act

end Config

end Ecos.Cdl
