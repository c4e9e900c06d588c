import Ecos.Cdl.TransactFiles

namespace Ecos.Cdl
open Function (update update_of_ne update_self)
open List Transaction Config

/-- What can be asked of a transaction: values, activity, and the conflicts of a node. -/
structure View (N S : Type*) where
  value : N → CdlValue S
  active : N → Bool
  conflicts : Bool → N → Option Nat → (Nat → Bool) → Set Nat

/-- What a transaction says about values, activity and conflicts itself. -/
def Transaction.valueLayer {N S : Type*} [DecidableEq N] (r : Transaction N S) (v : N) : Option (CdlValue S) :=
  r.changes.lookup v

def Transaction.activeLayer {N S : Type*} [DecidableEq N] (r : Transaction N S) (n : N) : Option Bool :=
  if n ∈ r.activated then some true else if n ∈ r.deactivated then some false else none

def Transaction.conflictLayer {N S : Type*} (k : Bool) (r : Transaction N S) : Layers.Change Nat :=
  ⟨{c | c ∈ r.newConflicts k}, {c | c ∈ r.deletedConflicts k}⟩

namespace Config
variable {N S : Type*} {s s' : Config N S} {t u p c d a : Nat} {v n : N} {k : Bool} {W : Nat → Prop}

/-! Active and inactive nodes are kept apart -/

def Apart (s : Config N S) : Prop :=
  ∀ t, s.alive t = true → Disjoint (s.trans t).activated (s.trans t).deactivated

section
variable (apart : s.Apart)
include apart

theorem Apart.step (each : ∀ u, s'.alive u = true →
    s.alive u = true ∧ (s'.trans u).activated = (s.trans u).activated ∧
      (s'.trans u).deactivated = (s.trans u).deactivated ∨
    Disjoint (s'.trans u).activated (s'.trans u).deactivated) : s'.Apart := by
  intro u there
  rcases each u there with ⟨was, activated, deactivated⟩ | apart'
  · rw [activated, deactivated]
    exact apart u was
  · exact apart'

theorem Apart.within (within : Within (· = t) s s')
    (inside : (s'.trans t).activated = (s.trans t).activated ∧ (s'.trans t).deactivated = (s.trans t).deactivated ∨
      Disjoint (s'.trans t).activated (s'.trans t).deactivated) : s'.Apart := by
  refine apart.step fun u there => ?_
  rw [within.alive] at there
  by_cases same : u = t
  · subst same
    exact inside.imp_left fun keeps => ⟨there, keeps⟩
  · rw [within.others u same]
    exact .inl ⟨there, rfl, rfl⟩

theorem Apart.cancel : (s.cancel t).Apart := by
  refine apart.within within_cancel (.inr ?_)
  rw [cancel_spec.1]
  exact Finset.disjoint_empty_left _

theorem Apart.delete : (s.delete t).Apart := by
  refine apart.step fun u there => .inl ⟨?_, rfl, rfl⟩
  by_cases same : u = t
  · subst same
    simp [delete] at there
  · simpa [Config.delete, same] using there

theorem Apart.quiet (alive : s'.alive = s.alive)
    (core : ∀ u, (s'.trans u).activated = (s.trans u).activated ∧ (s'.trans u).deactivated = (s.trans u).deactivated) :
    s'.Apart :=
  apart.step fun u there => .inl ⟨alive ▸ there, core u⟩

theorem Apart.modify {f : Transaction N S → Transaction N S}
    (keeps : ∀ r, (f r).activated = r.activated ∧ (f r).deactivated = r.deactivated) : (s.modify t f).Apart := by
  refine apart.quiet rfl fun u => ?_
  by_cases same : u = t
  · subst same
    rw [modify_self]
    exact keeps _
  · rw [modify_other same]
    exact ⟨rfl, rfl⟩

end

variable [DecidableEq N]

/-! Views -/

def view (s : Config N S) (t : Nat) : View N S where
  value := s.getWholeValue t
  active := s.isActive t
  conflicts k node property fn := {c | c ∈ s.getConflicts t k node property fn}

/-- The same questions to the toplevel. -/
def ownView (s : Config N S) : View N S where
  value := s.value
  active := s.active
  conflicts k node property fn := {c | c ∈ s.conflicts k ∧ (s.conf c).node = node ∧
    (property = none ∨ property = some (s.conf c).property) ∧ fn c = true}

/-! Views are seen through the layers of the lineage -/

theorem access_value (above : List Nat) (trans : s'.trans = s.trans) (value : s'.value = s.value) :
    (s'.access v above).1 = Layers.lookup s.value (above.map fun a => (s.trans a).valueLayer) v := by
  induction above generalizing s' with
  | nil => exact congrFun value v
  | cons a above ih =>
    obtain ⟨noted, how, run⟩ := s'.access_cons v a above
    have same : noted.trans = s.trans ∧ noted.value = s.value := by
      rcases how with ⟨-, rfl⟩ | ⟨c, -, rfl⟩ <;> exact ⟨trans, value⟩
    rw [map_cons]
    rw [trans] at run
    rcases run with ⟨found, known, run⟩ | ⟨unknown, run⟩
    · have known : (s.trans a).valueLayer v = some found := known
      rw [run]
      exact (Layers.lookup_cons_some known).symm
    · have unknown : (s.trans a).valueLayer v = none := unknown
      rw [run]
      exact (ih same.1 same.2).trans (Layers.lookup_cons_none unknown).symm

theorem getWholeValue_eq : s.getWholeValue t =
    Layers.lookup s.value ((s.lineage t).map fun a => (s.trans a).valueLayer) :=
  funext fun _ => access_value _ rfl rfl

theorem isActive_eq : s.isActive t = Layers.lookup s.active ((s.lineage t).map fun a => (s.trans a).activeLayer) := by
  funext n
  change isActive.go s n (s.lineage t) = _
  induction s.lineage t with
  | nil => rfl
  | cons a above ih =>
    rw [isActive.go, map_cons]
    by_cases on : n ∈ (s.trans a).activated
    · have known : (s.trans a).activeLayer n = some true := if_pos on
      rw [if_pos on, Layers.lookup_cons_some known]
    · by_cases off : n ∈ (s.trans a).deactivated
      · have known : (s.trans a).activeLayer n = some false := (if_neg on).trans (if_pos off)
        rw [if_neg on, if_pos off, Layers.lookup_cons_some known]
      · have unknown : (s.trans a).activeLayer n = none := (if_neg on).trans (if_neg off)
        rw [if_neg on, if_neg off, ih, Layers.lookup_cons_none unknown]

theorem Filed.mem_getConflicts (filed : s.Filed) (alive : s.alive t = true) {node : N} {property : Option Nat}
    {fn : Nat → Bool} : c ∈ s.getConflicts t k node property fn ↔
    c ∈ Layers.visible {c | c ∈ s.conflicts k} ((s.lineage t).map fun a => (s.trans a).conflictLayer k) ∧
      (s.conf c).node = node ∧ (property = none ∨ property = some (s.conf c).property) ∧ fn c = true := by
  have listed : c ∈ s.listed t k ↔ c ∈ s.conflicts k ∨ ∃ a ∈ s.lineage t, c ∈ (s.trans a).newConflicts k := by
    rw [Config.listed, mem_append, mem_flatMap, or_comm]
  have cleared (kind : (s.conf c).structural = k) : s.hasConflictBeenCleared t c = false ↔
      ∀ a ∈ s.lineage t, c ∉ (s.trans a).deletedConflicts k := by
    simp [hasConflictBeenCleared, kind]
  have visible : c ∈ Layers.visible {c | c ∈ s.conflicts k} ((s.lineage t).map fun a => (s.trans a).conflictLayer k) ↔
      c ∈ s.listed t k ∧ ∀ a ∈ s.lineage t, c ∉ (s.trans a).deletedConflicts k := by
    rw [listed]
    simp [Layers.visible, conflictLayer]
  rw [visible, getConflicts, mem_filter]
  constructor
  · rintro ⟨mem, holds⟩
    obtain ⟨is, kind, uncleared, wanted⟩ := of_decide_eq_true holds
    exact ⟨⟨mem, (cleared (filed.listed_owner alive mem).1).mp uncleared⟩, is, kind, wanted⟩
  · rintro ⟨⟨mem, uncleared⟩, is, kind, wanted⟩
    exact ⟨mem, decide_eq_true ⟨is, kind, (cleared (filed.listed_owner alive mem).1).mpr uncleared, wanted⟩⟩

theorem layers_core {r r' : Transaction N S} (core : r'.core = r.core) : r'.valueLayer = r.valueLayer ∧
    r'.activeLayer = r.activeLayer ∧ r'.newConflicts = r.newConflicts ∧ r'.deletedConflicts = r.deletedConflicts := by
  change r'.core.valueLayer = r.core.valueLayer ∧ r'.core.activeLayer = r.core.activeLayer ∧
    r'.core.newConflicts = r.core.newConflicts ∧ r'.core.deletedConflicts = r.core.deletedConflicts
  rw [core]
  exact ⟨rfl, rfl, rfl, rfl⟩

theorem Filed.view_congr (filed : s.Filed) (alive : s.alive t = true) (lineage : s'.lineage t = s.lineage t)
    (core : ∀ a ∈ s.lineage t, (s'.trans a).core = (s.trans a).core) (value : s'.value = s.value)
    (active : s'.active = s.active) (conflicts : s'.conflicts = s.conflicts)
    (node : ∀ c < s.nextConflict, (s'.conf c).node = (s.conf c).node)
    (property : ∀ c < s.nextConflict, (s'.conf c).property = (s.conf c).property)
    (structural : ∀ c < s.nextConflict, (s'.conf c).structural = (s.conf c).structural) : s'.view t = s.view t := by
  have values : ((s'.lineage t).map fun a => (s'.trans a).valueLayer) =
      (s.lineage t).map fun a => (s.trans a).valueLayer := by
    rw [lineage]
    exact map_congr_left fun a up => (layers_core (core a up)).1
  have actives : ((s'.lineage t).map fun a => (s'.trans a).activeLayer) =
      (s.lineage t).map fun a => (s.trans a).activeLayer := by
    rw [lineage]
    exact map_congr_left fun a up => (layers_core (core a up)).2.1
  have listed (k : Bool) : s'.listed t k = s.listed t k := by
    unfold Config.listed
    rw [lineage, conflicts, flatMap_congr fun a up => congrFun (layers_core (core a up)).2.2.1 k]
  have cleared (c : Nat) (bound : c < s.nextConflict) : s'.hasConflictBeenCleared t c = s.hasConflictBeenCleared t c := by
    unfold hasConflictBeenCleared
    rw [lineage, structural c bound, Bool.eq_iff_iff, any_eq_true, any_eq_true]
    have same (a : Nat) (up : a ∈ s.lineage t) : (s'.trans a).deletedConflicts = (s.trans a).deletedConflicts :=
      (layers_core (core a up)).2.2.2
    constructor
    · rintro ⟨a, up, holds⟩
      exact ⟨a, up, same a up ▸ holds⟩
    · rintro ⟨a, up, holds⟩
      exact ⟨a, up, (same a up).symm ▸ holds⟩
  have reported (k : Bool) (is : N) (at' : Option Nat) (fn : Nat → Bool) :
      s'.getConflicts t k is at' fn = s.getConflicts t k is at' fn := by
    unfold getConflicts
    rw [listed]
    refine filter_congr fun c mem => ?_
    have bound := (filed.listed_owner alive mem).2.1
    rw [node c bound, property c bound, cleared c bound]
  unfold view
  rw [getWholeValue_eq, getWholeValue_eq, isActive_eq, isActive_eq, values, actives, value, active]
  simp only [reported]

theorem Filed.view_within (filed : s.Filed) (alive : s.alive t = true) (within : Within W s s')
    (outside : ∀ a ∈ s.lineage t, ¬ W a) : s'.view t = s.view t :=
  filed.view_congr alive (lineage_same within.parent) (fun a up => by rw [within.others a (outside a up)]) within.value
    within.active within.conflicts within.node within.property within.structural

/-! Commit -/

theorem activeLayer_merged {sub r : Transaction N S} (apart : Disjoint sub.activated sub.deactivated) :
    (sub.merged r).activeLayer = Layers.merge sub.activeLayer r.activeLayer := by
  funext n
  unfold activeLayer Layers.merge
  rw [merged_active.1, merged_active.2]
  by_cases on : n ∈ sub.activated
  · have notOff : n ∉ sub.deactivated := Finset.disjoint_left.mp apart on
    simp [on, notOff]
  · by_cases off : n ∈ sub.deactivated <;> simp [on, off]

theorem valueLayer_merged {sub r : Transaction N S} :
    (sub.merged r).valueLayer = Layers.merge sub.valueLayer r.valueLayer :=
  funext fun _ => merged_changes

theorem Filed.view_commitSub (filed : s.Filed) (alive : s.alive t = true) (parent : (s.trans t).parent = some p)
    (filed' : (s.commitSub t p).Filed) (apart : Disjoint (s.trans t).activated (s.trans t).deactivated) :
    (s.commitSub t p).view p = s.view t := by
  obtain ⟨older, there⟩ := filed.older t p alive parent
  have within : Within (fun u => u = t ∨ u = p) s (s.commitSub t p) := within_commitSub
  have there' : (s.commitSub t p).alive p = true := (congrFun within.alive p).trans there
  have core := core_commitSub (s := s) (ne_of_lt older)
  obtain ⟨new, deleted, -, -⟩ := filed.commitSub_spec alive parent
  have mine : s.lineage t = t :: p :: s.above p := by
    rw [filed.lineage_sub alive parent, filed.lineage_cons there]
  have theirs : (s.commitSub t p).lineage p = p :: s.above p := by
    rw [lineage_same within.parent, filed.lineage_cons there]
  have rest : ∀ a ∈ s.above p, (s.commitSub t p).trans a = s.trans a := by
    intro a up
    refine within.others a ?_
    have strict := (filed.above_alive there a up).2
    rintro (is | is)
    · omega
    · omega
  have value : (s.commitSub t p).getWholeValue p = s.getWholeValue t := by
    have merged : ((s.commitSub t p).trans p).valueLayer =
        Layers.merge (s.trans t).valueLayer (s.trans p).valueLayer :=
      (congrArg valueLayer core).trans valueLayer_merged
    rw [getWholeValue_eq, getWholeValue_eq, mine, theirs, within.value]
    simp only [map_cons]
    rw [merged, Layers.lookup_merge, map_congr_left fun a up => congrArg valueLayer (rest a up)]
  have active : (s.commitSub t p).isActive p = s.isActive t := by
    have merged : ((s.commitSub t p).trans p).activeLayer =
        Layers.merge (s.trans t).activeLayer (s.trans p).activeLayer :=
      (congrArg activeLayer core).trans (activeLayer_merged apart)
    rw [isActive_eq, isActive_eq, mine, theirs, within.active]
    simp only [map_cons]
    rw [merged, Layers.lookup_merge, map_congr_left fun a up => congrArg activeLayer (rest a up)]
  have merged (k : Bool) : ((s.commitSub t p).trans p).conflictLayer k =
      ((s.trans t).conflictLayer k).merge ((s.trans p).conflictLayer k) := by
    unfold conflictLayer Layers.Change.merge
    rw [new, deleted]
    congr 1
    · ext c
      simp [Nodup.mem_sdiff_iff (filed.newNodup p k there)]
    · ext c
      simp
  have visible (k : Bool) : Layers.visible {c | c ∈ (s.commitSub t p).conflicts k}
      (((s.commitSub t p).lineage p).map fun a => ((s.commitSub t p).trans a).conflictLayer k) =
      Layers.visible {c | c ∈ s.conflicts k} ((s.lineage t).map fun a => (s.trans a).conflictLayer k) := by
    rw [mine, theirs, within.conflicts]
    simp only [map_cons]
    rw [merged, map_congr_left fun a up => congrArg (conflictLayer k) (rest a up)]
    refine Layers.visible_merge ?_ ?_
    · intro c made cleared
      have owner := (filed.new t k alive c made).1
      rcases (filed.deleted t k alive c cleared).2.2 with none | ⟨a, up, owned⟩
      · rw [owner] at none
        exact Option.some_ne_none t none
      · rw [owner] at owned
        have strict := (filed.above_alive alive a up).2
        exact ne_of_lt strict (Option.some.inj owned).symm
    · intro c _ made
      have owner := (filed.new p k there c made).1
      refine ⟨?_, ?_⟩
      · intro top
        have none := (filed.top k c top).1
        rw [owner] at none
        exact Option.some_ne_none p none
      · intro layer mem made'
        obtain ⟨a, up, rfl⟩ := mem_map.mp mem
        obtain ⟨aliveAbove, strict⟩ := filed.above_alive there a up
        have owner' := (filed.new a k aliveAbove c made').1
        rw [owner] at owner'
        exact ne_of_lt strict (Option.some.inj owner').symm
  have reported (k : Bool) (node : N) (property : Option Nat) (fn : Nat → Bool) :
      {c | c ∈ (s.commitSub t p).getConflicts p k node property fn} = {c | c ∈ s.getConflicts t k node property fn} := by
    ext c
    change c ∈ (s.commitSub t p).getConflicts p k node property fn ↔ c ∈ s.getConflicts t k node property fn
    rw [filed'.mem_getConflicts there', filed.mem_getConflicts alive, visible]
    refine and_congr_right fun seen => ?_
    have bound : c < s.nextConflict := by
      rcases seen.1 with top | ⟨layer, mem, made⟩
      · exact (filed.top k c top).2.2
      · obtain ⟨a, up, rfl⟩ := mem_map.mp mem
        exact (filed.new a k (filed.lineage_alive alive a up).1 c made).2.2
    rw [within.node c bound, within.property c bound]
  unfold view
  rw [value, active]
  simp only [reported]

theorem Filed.view_commitTop (filed : s.Filed) (alive : s.alive t = true) (root : (s.trans t).parent = none)
    (apart : Disjoint (s.trans t).activated (s.trans t).deactivated) : (s.commitTop t).ownView = s.view t := by
  have frame := frame_commitTop (s := s) (t := t)
  simp only [Config.frame, Prod.mk.injEq] at frame
  obtain ⟨-, -, -, -, -, -, value, active, -, node, property, -⟩ := frame
  have single : s.lineage t = [t] := lineage_root root
  have values : (s.commitTop t).value = s.getWholeValue t := by
    rw [getWholeValue_eq, single, value]
    exact Layers.lookup_install
  have actives : (s.commitTop t).active = s.isActive t := by
    rw [isActive_eq, single, active]
    refine Eq.trans ?_ Layers.lookup_install
    funext n
    change _ = ((s.trans t).activeLayer n).getD (s.active n)
    unfold activeLayer
    by_cases on : n ∈ (s.trans t).activated
    · have notOff : n ∉ (s.trans t).deactivated := Finset.disjoint_left.mp apart on
      simp [on, notOff]
    · by_cases off : n ∈ (s.trans t).deactivated <;> simp [on, off]
  have listed (k : Bool) (c : Nat) : c ∈ (s.commitTop t).conflicts k ↔
      c ∈ Layers.visible {c | c ∈ s.conflicts k} ((s.lineage t).map fun a => (s.trans a).conflictLayer k) := by
    have nodup : (s.conflicts k ++ (s.trans t).newConflicts k).Nodup := by
      refine Nodup.append (filed.topNodup k) (filed.newNodup t k alive) ?_
      intro c top new
      have owner := (filed.top k c top).1
      rw [(filed.new t k alive c new).1] at owner
      exact Option.some_ne_none t owner
    rw [commitTop_conflicts, nodup.mem_sdiff_iff, single, map_singleton, ← Layers.visible_install]
    simp [Layers.visible, conflictLayer]
  unfold ownView view
  rw [values, actives]
  congr 1
  funext k is at' fn
  ext c
  change c ∈ (s.commitTop t).conflicts k ∧ ((s.commitTop t).conf c).node = is ∧
    (at' = none ∨ at' = some ((s.commitTop t).conf c).property) ∧ fn c = true ↔ c ∈ s.getConflicts t k is at' fn
  have node : ((s.commitTop t).conf c).node = (s.conf c).node := congrFun node c
  have property : ((s.commitTop t).conf c).property = (s.conf c).property := congrFun property c
  rw [filed.mem_getConflicts alive, listed, node, property]

theorem apart_setActive {r : Transaction N S} {state : Bool} (apart : Disjoint r.activated r.deactivated) :
    Disjoint (r.setActive n state).activated (r.setActive n state).deactivated := by
  rw [Finset.disjoint_left] at apart ⊢
  intro m on off
  cases state with
  | true =>
    simp only [Transaction.setActive, if_true, Finset.mem_insert, Finset.mem_erase] at on off
    rcases on with rfl | on
    · exact off.1 rfl
    · exact apart on off.2
  | false =>
    simp only [Transaction.setActive, Bool.false_eq_true, if_false, Finset.mem_insert, Finset.mem_erase] at on off
    rcases off with rfl | off
    · exact on.1 rfl
    · exact apart on.2 off

theorem apart_merged {sub r : Transaction N S} (apart : Disjoint r.activated r.deactivated) :
    Disjoint (sub.merged r).activated (sub.merged r).deactivated := by
  rw [merged_active.1, merged_active.2]
  rw [Finset.disjoint_left] at apart ⊢
  intro m on off
  rw [Finset.mem_sdiff, Finset.mem_union] at on
  rw [Finset.mem_union, Finset.mem_sdiff] at off
  rcases off with ⟨off, notSub⟩ | off
  · rcases on.1 with on | on
    · exact apart on off
    · exact notSub on
  · exact on.2 off

section
variable (apart : s.Apart)
include apart

theorem Apart.commit (filed : s.Filed) (alive : s.alive t = true) : (s.commit t).Apart := by
  unfold Config.commit
  split
  · rename_i p parent
    obtain ⟨older, there⟩ := filed.older t p alive parent
    have within : Within (fun u => u = t ∨ u = p) s (s.commitSub t p) := within_commitSub
    have core := core_commitSub (s := s) (ne_of_lt older)
    refine apart.step fun u there' => ?_
    rw [within.alive] at there'
    by_cases isSelf : u = t
    · subst isSelf
      rw [(commitSub_trans (ne_of_lt older)).1]
      exact .inr (Finset.disjoint_empty_left _)
    by_cases isParent : u = p
    · subst isParent
      right
      change Disjoint ((s.commitSub t u).trans u).core.activated ((s.commitSub t u).trans u).core.deactivated
      rw [core]
      exact apart_merged (apart u there)
    · rw [within.others u (not_or.mpr ⟨isSelf, isParent⟩)]
      exact .inl ⟨there', rfl, rfl⟩
  · obtain ⟨trans, alive', -⟩ := commitTop_spec s t
    refine apart.step fun u there' => ?_
    rw [alive'] at there'
    rw [trans]
    by_cases isSelf : u = t
    · subst isSelf
      rw [update_self]
      exact .inr (Finset.disjoint_empty_left _)
    · rw [update_of_ne isSelf]
      exact .inl ⟨there', rfl, rfl⟩

theorem Apart.access (above : List Nat) : (s.access v above).2.Apart := by
  have within : Within (fun _ => False) s (s.access v above).2 := within_access above
  exact apart.quiet within.alive fun u => by rw [within.others u id]; exact ⟨rfl, rfl⟩

theorem Apart.propagateValue : (s.propagateValue t).Apart := by
  unfold Config.propagateValue
  split
  · exact apart
  · rename_i v vs queue
    let s₁ := s.modify t fun r => { r with valueChanges := vs }
    have popped : s₁.Apart := apart.modify fun _ => ⟨rfl, rfl⟩
    refine popped.quiet (within_updateSolutions (W := (· = t)) rfl).alive fun u => ?_
    have core : ((s₁.updateSolutions t v).trans u).core = (s₁.trans u).core := core_updateSolutions
    change ((s₁.updateSolutions t v).trans u).core.activated = (s₁.trans u).core.activated ∧
      ((s₁.updateSolutions t v).trans u).core.deactivated = (s₁.trans u).core.deactivated
    rw [core]
    exact ⟨rfl, rfl⟩

theorem Apart.setActive (alive : s.alive t = true) {state : Bool} : (s.setActive t n state).Apart := by
  refine apart.within (t := t) (within_modify rfl fun _ => ⟨rfl, rfl⟩) (.inr ?_)
  rw [Config.setActive, modify_self]
  exact apart_setActive (apart t alive)

theorem Apart.act [BEq S] {e : Act N S} (filed : s.Filed) (enabled : s.Enabled e) : (s.act e).Apart := by
  cases e with
  | getWholeValue t v => exact apart.access _
  | setWholeValue t v new =>
    change ((s.access v (s.lineage t)).2.setWholeValue t v (s.getWholeValue t v) new).Apart
    exact (apart.access _).modify fun _ => ⟨rfl, rfl⟩
  | setActive t n state => exact apart.setActive enabled.1
  | propagateValue t => exact apart.propagateValue
  | propagateActive t =>
    change (s.propagateActive t).Apart
    exact apart.modify fun _ => ⟨rfl, rfl⟩
  | newConflict t node property k =>
    have made : ({ s with
      conf := update s.conf s.nextConflict ⟨node, property, some t, k, false, [], ∅⟩
      live := update s.live s.nextConflict true
      nextConflict := s.nextConflict + 1 } : Config N S).Apart := apart
    exact made.modify fun _ => ⟨rfl, rfl⟩
  | clearConflict t c =>
    have looked : (s.touch c).Apart := apart
    change (s.clearConflict t c).Apart
    unfold clearConflict
    dsimp only
    split
    · have erased : ((s.touch c).modify t (·.eraseNew ((s.touch c).conf c).structural c)).Apart :=
        looked.modify fun _ => ⟨rfl, rfl⟩
      exact erased
    · exact looked.modify fun _ => ⟨rfl, rfl⟩
  | makeTop =>
    refine apart.step fun u there => ?_
    by_cases same : u = s.nextTransaction
    · subst same
      exact .inr (by simp [Config.act, makeTop, made])
    · simp only [Config.act, makeTop, update_of_ne same] at there ⊢
      exact .inl ⟨there, trivial, trivial⟩
  | makeSub t conflict =>
    refine apart.step fun u there => ?_
    by_cases same : u = s.nextTransaction
    · subst same
      exact .inr (by simp [Config.act, makeSub, made])
    · simp only [Config.act, makeSub, update_of_ne same] at there ⊢
      exact .inl ⟨there, trivial, trivial⟩
  | cancel t => exact apart.cancel
  | commit t => exact apart.commit filed enabled.1.1
  | delete t => exact apart.delete
  | resolveFailed t c =>
    have ended : ((s.cancel t).delete t).Apart := apart.cancel.delete
    exact ended
  | resolveSaved t p c =>
    let s₁ := (s.touch c).modifyConf c fun conf => { conf with
      solution := conf.solution ++ ((s.trans t).changes.entries.filter fun change => s.modifiable change.1).map
        (fun change => (change.1, change.2)) }
    have noted : s₁.Apart := apart
    have ended : (((s.saveSolution t c).cancel t).delete t).Apart := noted.cancel.cancel.delete
    have looked : ((((s.saveSolution t c).cancel t).delete t).touch c).Apart := ended
    change (s.resolveSaved t p c).Apart
    unfold resolveSaved
    dsimp only
    split
    · refine looked.modify fun r => ?_
      unfold noteGlobal
      split <;> exact ⟨rfl, rfl⟩
    · exact looked
  | resolveApplied t c =>
    let s₁ := (s.touch c).modifyConf c fun conf => { conf with
      solutionReferences := ∅
      noSolution := false
      solution := conf.solution ++ (s.trans t).changes.entries.map fun change => (change.1, change.2) }
    have filed₁ : s₁.Filed := filed.same (sameFiles_conf fun _ => ⟨rfl, rfl, rfl, rfl⟩)
    have noted : s₁.Apart := apart
    exact (noted.commit filed₁ enabled.1.1).delete

end

theorem Reach.apart [BEq S] (reach : (system N S).Reach s) : s.Apart := by
  have both : s.Filed ∧ s.Apart := by
    refine reach.kept (P := fun s : Config N S => s.Filed ∧ s.Apart) ?_ ?_
    · exact fun s start => ⟨.start start, fun t there => absurd there (by simp [start.alive t])⟩
    · exact fun s e held enabled => ⟨held.1.act enabled, held.2.act held.1 enabled⟩
  exact both.2

end Config

end Ecos.Cdl
