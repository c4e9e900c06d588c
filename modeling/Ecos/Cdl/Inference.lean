import Ecos.Cdl.TransactMemory
import Ecos.Cdl.TransactSnapshots

/-! `host/libcdl/transact.cxx`, `infer.cxx`: automatic inference. What the inference engine tries for a conflict is any
sequence of acts on the sub-transaction made for it and on the transactions below. -/

namespace Ecos.Cdl
open Config List
variable {N S : Type*}

/-- The transaction that is worked on. -/
def Act.on : Act N S → Option Nat
  | .getWholeValue t _ | .setWholeValue t _ _ | .setActive t _ _ | .newConflict t _ _ _ | .clearConflict t _
  | .propagateValue t | .propagateActive t | .makeSub t _ | .cancel t | .commit t | .delete t | .resolveFailed t _
  | .resolveSaved t _ _ | .resolveApplied t _ => some t
  | .makeTop => none

/-- The transaction that is committed or deleted. -/
def Act.ends : Act N S → Option Nat
  | .commit t | .delete t | .resolveFailed t _ | .resolveSaved t _ _ | .resolveApplied t _ => some t
  | _ => none

/-- The acts of `propagate`. -/
def Act.plain : Act N S → Option Nat
  | .getWholeValue t _ | .setWholeValue t _ _ | .setActive t _ _ | .newConflict t _ _ _ | .clearConflict t _
  | .propagateValue t | .propagateActive t => some t
  | _ => none

namespace Config
variable [DecidableEq N] [BEq S] {s s' : Config N S} {e : Act N S} {es : List (Act N S)} {t u p c a sub : Nat} {v : N}

/-- An act of the inference engine on the sub-transaction, or below. -/
def Inside (s : Config N S) (sub : Nat) (e : Act N S) : Prop :=
  s.Enabled e ∧ (∃ u ∈ e.on, sub ∈ s.lineage u) ∧ e.ends ≠ some sub

/-- `inner_resolve` for the conflict, on a sub-transaction of its own. -/
structure Tries (s : Config N S) (t c : Nat) (es : List (Act N S)) : Prop where
  made : s.Enabled (.makeSub t (some c))
  run : Machine.Admits (fun r e => r.Inside s.nextTransaction e) act (s.makeSub t (some c)) es

def tried (s : Config N S) (t c : Nat) (es : List (Act N S)) : Config N S := es.foldl act (s.makeSub t (some c))

/-- `resolve` at level 0, for one conflict. -/
inductive Resolves (t : Nat) (s : Config N S) : Config N S → Prop
  | failed {c : Nat} {es : List (Act N S)} (tries : s.Tries t c es)
    (last : (s.tried t c es).Enabled (.resolveFailed s.nextTransaction c)) :
    Resolves t s ((s.tried t c es).resolveFailed s.nextTransaction c)
  | saved {c : Nat} {es : List (Act N S)} (tries : s.Tries t c es)
    (last : (s.tried t c es).Enabled (.resolveSaved s.nextTransaction t c)) :
    Resolves t s ((s.tried t c es).resolveSaved s.nextTransaction t c)
  | applied {c : Nat} {es : List (Act N S)} (tries : s.Tries t c es)
    (last : (s.tried t c es).Enabled (.resolveApplied s.nextTransaction c))
    (free : (s.tried t c es).userConfirmationRequired s.nextTransaction t = false) :
    Resolves t s ((s.tried t c es).resolveApplied s.nextTransaction c)

/-- `resolve` at level 0, for all conflicts that need it, as far as it has got. -/
def Infers (t : Nat) : Config N S → Config N S → Prop := Relation.ReflTransGen (Resolves t)

/-- `propagate`, with the update handlers. -/
def Propagates (t : Nat) (s s' : Config N S) : Prop :=
  ∃ es, Machine.Admits (fun r e => Enabled r e ∧ e.plain = some t) act s es ∧ s' = es.foldl act s ∧
    (s'.trans t).valueChanges = [] ∧ (s'.trans t).activeChanges = []

/-- `body`, without an inference callback. -/
inductive Body (t : Nat) : Config N S → Config N S → Prop
  | again {s r s' s''} (propagates : Propagates t s r) (infers : Infers t r s')
    (progress : (s'.trans t).valueChanges ≠ []) (body : Body t s' s'') : Body t s s''
  | done {s r s'} (propagates : Propagates t s r) (infers : Infers t r s') (quiet : (s'.trans t).valueChanges = [])
    (last : s'.Enabled (.commit t)) : Body t s (s'.commit t)

/-- The value comes from a wizard or from the user. -/
def SetByUser (s : Config N S) (t : Nat) (v : N) : Prop :=
  (s.getWholeValue t v).getSource = .wizard ∨ (s.getWholeValue t v).getSource = .user

/-! What an act leaves alone -/

theorem act_alive (there : s.alive u = true) (stays : e.ends ≠ some u) : (s.act e).alive u = true := by
  have deleted {s' : Config N S} {t : Nat} (there : s'.alive u = true) (other : some t ≠ some u) :
      (s'.delete t).alive u = true := by
    have other : u ≠ t := fun same => other (congrArg some same.symm)
    simpa [delete, other] using there
  have committed (s' : Config N S) (t : Nat) (there : s'.alive u = true) : (s'.commit t).alive u = true := by
    unfold commit
    split
    · rwa [within_commitSub.alive]
    · rwa [(commitTop_spec s' t).2.1]
  cases e with
  | getWholeValue t v => exact (congrFun (within_access (W := fun _ => False) _).alive u).trans there
  | setWholeValue t v new => exact (congrFun within_set.alive u).trans there
  | clearConflict t c => exact (congrFun within_clearConflict.alive u).trans there
  | propagateValue t => exact (congrFun within_propagateValue.alive u).trans there
  | setActive t n state => exact there
  | newConflict t node property k => exact there
  | propagateActive t => exact there
  | makeTop =>
    by_cases same : u = s.nextTransaction
    · simp [act, makeTop, same]
    · simpa [act, makeTop, same] using there
  | makeSub t conflict =>
    by_cases same : u = s.nextTransaction
    · simp [act, makeSub, same]
    · simpa [act, makeSub, same] using there
  | cancel t => exact (congrFun within_cancel.alive u).trans there
  | commit t => exact committed s t there
  | delete t => exact deleted there stays
  | resolveFailed t c => exact deleted ((congrFun within_cancel.alive u).trans there) stays
  | resolveSaved t q c =>
    have within : Within (· = t) s ((s.saveSolution t c).cancel t) := within_saveSolution.trans within_cancel
    have ended : (((s.saveSolution t c).cancel t).delete t).alive u = true :=
      deleted ((congrFun within.alive u).trans there) stays
    change (s.resolveSaved t q c).alive u = true
    unfold resolveSaved
    dsimp only
    split <;> exact ended
  | resolveApplied t c => exact deleted (committed _ t there) stays

theorem act_valuable : (s.act e).valuable = s.valuable := by
  have committed (s' : Config N S) (t : Nat) : (s'.commit t).valuable = s'.valuable := by
    unfold commit
    split
    · exact within_commitSub.valuable
    · have frame := frame_commitTop (s := s') (t := t)
      simp only [Config.frame, Prod.mk.injEq] at frame
      exact frame.2.2.2.2.2.2.2.2.1
  cases e with
  | getWholeValue t v => exact (within_access (W := fun _ => False) _).valuable
  | setWholeValue t v new => exact within_set.valuable
  | clearConflict t c => exact within_clearConflict.valuable
  | propagateValue t => exact within_propagateValue.valuable
  | cancel t => exact within_cancel.valuable
  | commit t => exact committed s t
  | resolveFailed t c => exact (within_cancel (s := s) (t := t)).valuable
  | resolveSaved t q c =>
    have within : Within (· = t) s ((s.saveSolution t c).cancel t) := within_saveSolution.trans within_cancel
    change (s.resolveSaved t q c).valuable = s.valuable
    unfold resolveSaved
    dsimp only
    split <;> exact within.valuable
  | resolveApplied t c => exact committed _ t
  | _ => rfl

theorem Inside.others (inside : s.Inside sub e) (filed : s.Filed) (there : s.alive a = true)
    (elsewhere : sub ∉ s.lineage a) : (s.act e).trans a = s.trans a := by
  obtain ⟨enabled, ⟨u, on, below⟩, stays⟩ := inside
  have other {w : Nat} (below : sub ∈ s.lineage w) : a ≠ w := fun same => elsewhere (same ▸ below)
  have up {w q : Nat} (alive : s.alive w = true) (parent : (s.trans w).parent = some q) (below : sub ∈ s.lineage w)
      (notSub : w ≠ sub) : sub ∈ s.lineage q := by
    rw [filed.lineage_sub alive parent] at below
    exact (mem_cons.mp below).resolve_left (Ne.symm notSub)
  have committed (s' : Config N S) (w : Nat) (trans : s'.trans = s.trans) (alive : s.alive w = true)
      (below : sub ∈ s.lineage w) (notSub : w ≠ sub) : (s'.commit w).trans a = s.trans a := by
    unfold commit
    rw [trans]
    split
    · rename_i q parent
      refine (within_commitSub.others a ?_).trans (congrFun trans a)
      rintro (same | same)
      · exact other below same
      · exact other (up alive parent below notSub) same
    · rw [(commitTop_spec s' w).1, Function.update_of_ne (other below), trans]
  cases e with
  | getWholeValue t v =>
    exact (within_access (W := fun _ => False) (s.lineage t)).others a id
  | setWholeValue t v new => cases on; exact within_set.others a (other below)
  | setActive t n state => cases on; exact modify_other (other below)
  | newConflict t node property k => cases on; exact within_newConflict.others a (other below)
  | clearConflict t c => cases on; exact within_clearConflict.others a (other below)
  | propagateValue t => cases on; exact within_propagateValue.others a (other below)
  | propagateActive t =>
    cases on
    change (s.modify u fun r => { r with activeChanges := r.activeChanges.tail }).trans a = s.trans a
    exact modify_other (other below)
  | makeTop => cases on
  | makeSub t conflict =>
    exact Function.update_of_ne (ne_of_lt (filed.bound a there)) _ _
  | cancel t => cases on; exact within_cancel.others a (other below)
  | commit t => cases on; exact committed s u rfl enabled.1.1 below fun same => stays (congrArg some same)
  | delete t => rfl
  | resolveFailed t c => cases on; exact within_cancel.others a (other below)
  | resolveSaved t q c =>
    cases on
    have within : Within (· = u) s ((s.saveSolution u c).cancel u) := within_saveSolution.trans within_cancel
    have parentOther : a ≠ q :=
      other (up enabled.1.1 enabled.2.1 below fun same => stays (congrArg some same))
    change (s.resolveSaved u q c).trans a = s.trans a
    unfold resolveSaved
    dsimp only
    split
    · exact (modify_other parentOther).trans (within.others a (other below))
    · exact within.others a (other below)
  | resolveApplied t c =>
    cases on
    exact committed _ u rfl enabled.1.1 below fun same => stays (congrArg some same)

theorem Inside.step (inside : s.Inside sub e) (filed : s.Filed) (there : s.alive sub = true)
    (parent : (s.trans sub).parent = some t) : (s.act e).alive sub = true ∧ ((s.act e).trans sub).parent = some t ∧
      (s.act e).trans t = s.trans t ∧ (s.act e).view t = s.view t := by
  obtain ⟨older, alive⟩ := filed.older sub t there parent
  have higher (w : Nat) (aliveW : s.alive w = true) (below : sub ∈ s.lineage w) : sub ≤ w :=
    (filed.lineage_alive aliveW sub below).2
  have elsewhere : sub ∉ s.lineage t := fun below => absurd (higher t alive below) (Nat.not_le.mpr older)
  refine ⟨act_alive there inside.2.2, (act_static (filed.bound sub there)).1.trans parent,
    inside.others filed alive elsewhere, filed.view_elsewhere inside.1 there parent ?_ ?_⟩
  · intro commits
    refine inside.2.2 ?_
    cases e with
    | commit u => exact commits
    | resolveApplied u c => exact commits
    | _ => cases commits
  · intro w q commits above up
    obtain ⟨enabled, ⟨x, on, below⟩, stays⟩ := inside
    have aliveW : s.alive w = true ∧ sub ∈ s.lineage w ∧ w ≠ sub := by
      cases e with
      | commit u =>
        cases commits
        cases on
        exact ⟨enabled.1.1, below, fun same => stays (congrArg some same)⟩
      | resolveApplied u c =>
        cases commits
        cases on
        exact ⟨enabled.1.1, below, fun same => stays (congrArg some same)⟩
      | _ => cases commits
    obtain ⟨aliveW, below, notSub⟩ := aliveW
    rw [filed.lineage_sub aliveW above] at below
    have belowParent := (mem_cons.mp below).resolve_left (Ne.symm notSub)
    have aliveQ := (filed.older w q aliveW above).2
    have low := (filed.lineage_alive alive q up).2
    exact absurd ((higher q aliveQ belowParent).trans low) (Nat.not_le.mpr older)

theorem inside_run (filed : s.Filed) (apart : s.Apart) (there : s.alive sub = true)
    (parent : (s.trans sub).parent = some t) (run : Machine.Admits (fun r e => r.Inside sub e) act s es) :
    (es.foldl act s).Filed ∧ (es.foldl act s).Apart ∧ (es.foldl act s).alive sub = true ∧
      ((es.foldl act s).trans sub).parent = some t ∧ (es.foldl act s).trans t = s.trans t ∧
      (es.foldl act s).view t = s.view t ∧ (es.foldl act s).valuable = s.valuable := by
  induction es generalizing s with
  | nil => exact ⟨filed, apart, there, parent, rfl, rfl, rfl⟩
  | cons e es ih =>
    obtain ⟨inside, rest⟩ := run
    obtain ⟨there', parent', trans, view⟩ := inside.step filed there parent
    obtain ⟨filed'', apart'', there'', parent'', trans', view', valuable⟩ :=
      ih (filed.act inside.1) (apart.act filed inside.1) there' parent' rest
    exact ⟨filed'', apart'', there'', parent'', trans'.trans trans, view'.trans view, valuable.trans act_valuable⟩

end Config

end Ecos.Cdl
