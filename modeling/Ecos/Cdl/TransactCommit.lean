import Ecos.Cdl.TransactFrames

namespace Ecos.Cdl
open List Config Function

/-! Loops -/

section Loops
variable {σ α β : Type*} {f : σ → α → σ} {s : σ}

theorem foldl_keeps (g : σ → β) (same : ∀ s x, g (f s x) = g s) (l : List α) : g (l.foldl f s) = g s := by
  induction l generalizing s with
  | nil => rfl
  | cons x l ih => exact ih.trans (same s x)

theorem foldl_evolves (g : σ → β) {h : β → α → β} (step : ∀ s x, g (f s x) = h (g s) x) (l : List α) :
    g (l.foldl f s) = l.foldl h (g s) := by
  induction l generalizing s with
  | nil => rfl
  | cons x l ih => exact ih.trans (congrArg (l.foldl h) (step s x))

theorem foldl_set [DecidableEq α] {d : α} {o new : β} (l : List α) :
    l.foldl (fun o c => if d = c then new else o) o = if d ∈ l then new else o := by
  induction l generalizing o with
  | nil => simp
  | cons c l ih =>
    rw [foldl_cons, ih]
    by_cases here : d = c <;> simp [here]

end Loops

namespace Transaction
variable {N S : Type*} {k j : Bool} {c : Nat} {l : List Nat} {sub r : Transaction N S}

theorem takeDeleted_new : (r.takeDeleted k c).newConflicts j =
    if j = k then (r.newConflicts k).erase c else r.newConflicts j := by
  unfold takeDeleted
  by_cases same : j = k
  · subst same
    split
    · simp [eraseNew]
    · rename_i absent
      simp [pushDeleted, erase_of_not_mem absent]
  · split
    · simp [eraseNew, same]
    · simp [pushDeleted]

theorem takeDeleted_deleted : (r.takeDeleted k c).deletedConflicts j =
    if j = k ∧ c ∉ r.newConflicts k then r.deletedConflicts k ++ [c] else r.deletedConflicts j := by
  unfold takeDeleted
  by_cases same : j = k
  · subst same
    split
    · simp_all [eraseNew]
    · simp_all [pushDeleted]
  · split
    · simp [eraseNew, same]
    · simp [pushDeleted, same]

theorem takeDeleted_rest : (r.takeDeleted k c).changes = r.changes ∧ (r.takeDeleted k c).activated = r.activated ∧
    (r.takeDeleted k c).deactivated = r.deactivated := by
  unfold takeDeleted
  split <;> exact ⟨rfl, rfl, rfl⟩

theorem takeDeleted_fold (newNodup : (r.newConflicts k).Nodup) (nodup : l.Nodup) :
    (l.foldl (fun r c => r.takeDeleted k c) r).newConflicts k = (r.newConflicts k).diff l ∧
      (l.foldl (fun r c => r.takeDeleted k c) r).deletedConflicts k =
        r.deletedConflicts k ++ l.filter (· ∉ r.newConflicts k) := by
  induction l generalizing r with
  | nil => simp
  | cons c l ih =>
    obtain ⟨fresh, nodup⟩ := nodup_cons.mp nodup
    have new : (r.takeDeleted k c).newConflicts k = (r.newConflicts k).erase c := by
      rw [takeDeleted_new, if_pos rfl]
    have newNodup' : ((r.takeDeleted k c).newConflicts k).Nodup := new ▸ newNodup.erase c
    obtain ⟨new', deleted'⟩ := ih newNodup' nodup
    have still : l.filter (· ∉ (r.takeDeleted k c).newConflicts k) = l.filter (· ∉ r.newConflicts k) := by
      refine filter_congr fun d mem => ?_
      have other : d ≠ c := fun is => fresh (is ▸ mem)
      simp only [new, mem_erase_of_ne other]
    rw [foldl_cons]
    refine ⟨?_, ?_⟩
    · rw [new', new, diff_cons]
    · rw [deleted', still, takeDeleted_deleted]
      by_cases own : c ∈ r.newConflicts k <;> simp [own]

theorem takeDeleted_fold_other (other : j ≠ k) :
    (l.foldl (fun r c => r.takeDeleted k c) r).newConflicts j = r.newConflicts j ∧
      (l.foldl (fun r c => r.takeDeleted k c) r).deletedConflicts j = r.deletedConflicts j := by
  refine ⟨?_, ?_⟩
  · exact foldl_keeps (fun r : Transaction N S => r.newConflicts j)
      (fun r c => by rw [takeDeleted_new, if_neg other]) l
  · exact foldl_keeps (fun r : Transaction N S => r.deletedConflicts j)
      (fun r c => by rw [takeDeleted_deleted, if_neg fun both => other both.1]) l

theorem pushNew_fold : (l.foldl (fun r c => r.pushNew k c) r).newConflicts j =
    if j = k then r.newConflicts k ++ l else r.newConflicts j := by
  induction l generalizing r with
  | nil =>
    by_cases same : j = k <;> simp [same]
  | cons c l ih =>
    rw [foldl_cons, ih]
    by_cases same : j = k
    · subst same
      simp [pushNew]
    · simp [pushNew, same]

theorem pushNew_fold_deleted : (l.foldl (fun r c => r.pushNew k c) r).deletedConflicts = r.deletedConflicts :=
  foldl_keeps deletedConflicts (by intros; rfl) l

variable [DecidableEq N]

theorem insertChanges {entries : List (Sigma fun _ : N => CdlValue S)} (nodup : (entries.map Sigma.fst).Nodup)
    {changes : AList fun _ : N => CdlValue S} {v : N} :
    (entries.foldl (fun changes change => changes.insert change.1 change.2) changes).lookup v =
      (entries.dlookup v).or (changes.lookup v) := by
  induction entries generalizing changes with
  | nil => rfl
  | cons change entries ih =>
    obtain ⟨fresh, nodup⟩ := nodup_cons.mp nodup
    rw [foldl_cons, ih nodup]
    by_cases here : change.1 = v
    · subst here
      have absent : entries.dlookup change.1 = none := dlookup_eq_none.mpr fresh
      rw [absent, AList.lookup_insert, Option.none_or]
      obtain ⟨v, value⟩ := change
      rw [dlookup_cons_eq]
      rfl
    · rw [AList.lookup_insert_ne (Ne.symm here), dlookup_cons_ne entries change (Ne.symm here)]

/-- The containers that the views of transactions are made of. -/
def core (r : Transaction N S) : Transaction N S :=
  { r with valueChanges := [], activeChanges := [], resolvedConflicts := [], globalConflictsWithSolutions := [] }

/-- What a sub-transaction leaves in its parent. -/
def merged (sub r : Transaction N S) : Transaction N S :=
  let r := (sub.deletedConflicts false).foldl (fun r c => r.takeDeleted false c) r
  let r := (sub.deletedConflicts true).foldl (fun r c => r.takeDeleted true c) r
  let r := sub.changes.entries.foldl (fun r change => r.insertChange change) r
  let r := (sub.newConflicts false).foldl (fun r c => r.pushNew false c) r
  let r := (sub.newConflicts true).foldl (fun r c => r.pushNew true c) r
  sub.mergeActive r

theorem insertChange_fold {entries : List (Sigma fun _ : N => CdlValue S)} :
    (entries.foldl (fun r change => r.insertChange change) r).newConflicts = r.newConflicts ∧
      (entries.foldl (fun r change => r.insertChange change) r).deletedConflicts = r.deletedConflicts :=
  ⟨foldl_keeps newConflicts (by intros; rfl) entries, foldl_keeps deletedConflicts (by intros; rfl) entries⟩

theorem merged_lists (newNodup : ∀ k, (r.newConflicts k).Nodup) (nodup : ∀ k, (sub.deletedConflicts k).Nodup) :
    (merged sub r).newConflicts k = (r.newConflicts k).diff (sub.deletedConflicts k) ++ sub.newConflicts k ∧
      (merged sub r).deletedConflicts k =
        r.deletedConflicts k ++ (sub.deletedConflicts k).filter (· ∉ r.newConflicts k) := by
  cases k with
  | false =>
    have taken := takeDeleted_fold (newNodup false) (nodup false)
    have other (r : Transaction N S) := takeDeleted_fold_other (k := true) (j := false)
      (l := sub.deletedConflicts true) (r := r) (by decide)
    refine ⟨?_, ?_⟩
    · simp only [merged, mergeActive, pushNew_fold, insertChange_fold.1, (other _).1, taken.1]
      simp
    · simp only [merged, mergeActive, pushNew_fold_deleted, insertChange_fold.2, (other _).2, taken.2]
  | true =>
    have other := takeDeleted_fold_other (k := false) (j := true) (l := sub.deletedConflicts false) (r := r) (by decide)
    have taken := takeDeleted_fold (k := true) (other.1 ▸ newNodup true) (nodup true)
    rw [other.1, other.2] at taken
    refine ⟨?_, ?_⟩
    · simp only [merged, mergeActive, pushNew_fold, insertChange_fold.1, taken.1]
      simp
    · simp only [merged, mergeActive, pushNew_fold_deleted, insertChange_fold.2, taken.2]

theorem merged_changes {v : N} : (merged sub r).changes.lookup v = (sub.changes.lookup v).or (r.changes.lookup v) := by
  have pushed (k : Bool) (l : List Nat) (r : Transaction N S) :
      (l.foldl (fun r c => r.pushNew k c) r).changes = r.changes := foldl_keeps changes (by intros; rfl) l
  have taken (k : Bool) (l : List Nat) (r : Transaction N S) :
      (l.foldl (fun r c => r.takeDeleted k c) r).changes = r.changes :=
    foldl_keeps changes (by intros; exact takeDeleted_rest.1) l
  have inserted (r : Transaction N S) : (sub.changes.entries.foldl (fun r change => r.insertChange change) r).changes =
      sub.changes.entries.foldl (fun changes change => changes.insert change.1 change.2) r.changes :=
    foldl_evolves changes (by intros; rfl) _
  simp only [merged, mergeActive, pushed, inserted, taken]
  exact insertChanges sub.changes.nodupKeys

theorem merged_active : (merged sub r).activated = (r.activated ∪ sub.activated) \ sub.deactivated ∧
    (merged sub r).deactivated = r.deactivated \ sub.activated ∪ sub.deactivated := by
  have pushed (k : Bool) (l : List Nat) (r : Transaction N S) :
      (l.foldl (fun r c => r.pushNew k c) r).activated = r.activated ∧
        (l.foldl (fun r c => r.pushNew k c) r).deactivated = r.deactivated :=
    ⟨foldl_keeps activated (by intros; rfl) l, foldl_keeps deactivated (by intros; rfl) l⟩
  have taken (k : Bool) (l : List Nat) (r : Transaction N S) :
      (l.foldl (fun r c => r.takeDeleted k c) r).activated = r.activated ∧
        (l.foldl (fun r c => r.takeDeleted k c) r).deactivated = r.deactivated :=
    ⟨foldl_keeps activated (by intros; exact takeDeleted_rest.2.1) l,
      foldl_keeps deactivated (by intros; exact takeDeleted_rest.2.2) l⟩
  have inserted (r : Transaction N S) :
      (sub.changes.entries.foldl (fun r change => r.insertChange change) r).activated = r.activated ∧
        (sub.changes.entries.foldl (fun r change => r.insertChange change) r).deactivated = r.deactivated :=
    ⟨foldl_keeps activated (by intros; rfl) _, foldl_keeps deactivated (by intros; rfl) _⟩
  refine ⟨?_, ?_⟩
  · simp only [merged, mergeActive, (pushed _ _ _).1, (inserted _).1, (taken _ _ _).1]
  · simp only [merged, mergeActive, (pushed _ _ _).2, (inserted _).2, (taken _ _ _).2]

end Transaction

namespace Config
variable {N S : Type*} {s s' : Config N S} {t u p c d : Nat} {v : N} {k : Bool} {W : Nat → Prop}

theorem modify_self {f : Transaction N S → Transaction N S} : (s.modify t f).trans t = f (s.trans t) :=
  update_self ..

theorem modify_other {f : Transaction N S → Transaction N S} (other : u ≠ t) : (s.modify t f).trans u = s.trans u :=
  update_of_ne other ..

/-! The loops of `commit`, one conflict at a time -/

theorem commitResolved_trans : (commitResolved t p s c).trans p = (s.trans p).pushResolved c := by
  unfold commitResolved
  dsimp only
  split <;> exact modify_self

theorem commitResolved_owner : ((commitResolved t p s c).conf d).transaction =
    if d = c ∧ (s.conf d).transaction = some t then some p else (s.conf d).transaction := by
  by_cases owned : (s.conf c).transaction = some t
  · have step : commitResolved t p s c = ((s.touch c).modify p (·.pushResolved c)).modifyConf c
        fun conf => { conf with transaction := some p } := if_pos owned
    rw [step]
    by_cases here : d = c
    · subst here
      simp [modifyConf, owned]
    · simp [modifyConf, here, modify, touch]
  · have step : commitResolved t p s c = (s.touch c).modify p (·.pushResolved c) := if_neg owned
    rw [step, if_neg]
    · rfl
    · rintro ⟨rfl, is⟩
      exact owned is

theorem commitDeleted_trans {conflict : Option Nat} : (commitDeleted conflict p s c).trans p =
    let r := (s.trans p).takeDeleted false c
    let r := if (s.conf c).transaction = none then r.eraseGlobal c else r
    if conflict = some c then r.noteResolved c else r := by
  have taken : (if (s.conf c).transaction = none
        then ((s.touch c).modify p fun r => r.takeDeleted false c).modify p fun r => r.eraseGlobal c
        else (s.touch c).modify p fun r => r.takeDeleted false c).trans p =
      if (s.conf c).transaction = none then ((s.trans p).takeDeleted false c).eraseGlobal c
        else (s.trans p).takeDeleted false c := by
    split
    · rw [modify_self, modify_self]
      rfl
    · exact modify_self
  unfold commitDeleted
  dsimp only
  split
  · rw [modify_self]
    exact congrArg _ taken
  · split <;> exact taken

theorem commitDeletedStructural_trans : (commitDeletedStructural p s c).trans p = (s.trans p).takeDeleted true c := by
  unfold commitDeletedStructural
  dsimp only
  split <;> exact modify_self

theorem commitNew_owner : ((commitNew k p s c).conf d).transaction =
    if d = c then some p else (s.conf d).transaction := by
  by_cases here : d = c
  · subst here
    simp [commitNew, modifyConf]
  · simp [commitNew, modifyConf, here, modify, touch]

open Transaction in
theorem core_noteResolved {r : Transaction N S} : core (r.noteResolved c) = core r := by
  unfold noteResolved
  split <;> rfl

open Transaction in
theorem core_noteGlobal {r : Transaction N S} : core (r.noteGlobal c) = core r := by
  unfold noteGlobal
  split <;> rfl

open Transaction in
theorem core_takeDeleted {r : Transaction N S} : core (r.takeDeleted k c) = (core r).takeDeleted k c := by
  change core (if c ∈ r.newConflicts k then _ else _) = if c ∈ r.newConflicts k then _ else _
  split <;> rfl

open Transaction in
theorem core_commitDeleted {conflict : Option Nat} :
    core ((commitDeleted conflict p s c).trans p) = (core (s.trans p)).takeDeleted false c := by
  rw [commitDeleted_trans, ← core_takeDeleted]
  dsimp only
  split
  · rw [core_noteResolved]
    split <;> rfl
  · split <;> rfl

theorem commitDeleted_conf {conflict : Option Nat} : (commitDeleted conflict p s c).conf = s.conf := by
  have taken : (if (s.conf c).transaction = none
        then ((s.touch c).modify p fun r => r.takeDeleted false c).modify p fun r => r.eraseGlobal c
        else (s.touch c).modify p fun r => r.takeDeleted false c).conf = s.conf := by
    split <;> rfl
  unfold commitDeleted
  dsimp only
  split
  · exact taken
  · split <;> exact taken

theorem commitDeletedStructural_conf : (commitDeletedStructural p s c).conf = s.conf := by
  unfold commitDeletedStructural
  dsimp only
  split <;> rfl

theorem foldl_commitResolved_owner (l : List Nat) : ((l.foldl (commitResolved t p) s).conf d).transaction =
    if d ∈ l ∧ (s.conf d).transaction = some t then some p else (s.conf d).transaction := by
  induction l generalizing s with
  | nil => simp
  | cons c l ih =>
    rw [foldl_cons, ih, commitResolved_owner]
    by_cases here : d = c
    · subst here
      by_cases owned : (s.conf d).transaction = some t <;> simp [owned]
    · simp [here]

theorem within_commitDeleted {conflict : Option Nat} (inside : W p) : Within W s (commitDeleted conflict p s c) := by
  have kept (s : Config N S) (f : Transaction N S → Transaction N S)
      (keeps : ∀ r, (f r).parent = r.parent ∧ (f r).conflict = r.conflict) : Within W s (s.modify p f) :=
    within_modify inside keeps
  have taken : ∀ r : Transaction N S, (r.takeDeleted false c).parent = r.parent ∧
      (r.takeDeleted false c).conflict = r.conflict := by
    intro r
    unfold Transaction.takeDeleted
    split <;> exact ⟨rfl, rfl⟩
  have noted : ∀ r : Transaction N S, (r.noteResolved c).parent = r.parent ∧
      (r.noteResolved c).conflict = r.conflict := by
    intro r
    unfold Transaction.noteResolved
    split <;> exact ⟨rfl, rfl⟩
  have first : Within W s ((s.touch c).modify p (·.takeDeleted false c)) := within_touch.trans (kept _ _ taken)
  have second : Within W s (if (s.conf c).transaction = none
      then ((s.touch c).modify p fun r => r.takeDeleted false c).modify p fun r => r.eraseGlobal c
      else (s.touch c).modify p fun r => r.takeDeleted false c) := by
    split
    · exact first.trans (kept _ _ fun _ => ⟨rfl, rfl⟩)
    · exact first
  unfold commitDeleted
  dsimp only
  split
  · exact second.trans (kept _ _ noted)
  · split
    · exact second.trans within_destroy
    · exact second

theorem within_commitResolved (inside : W p) : Within W s (commitResolved t p s c) := by
  have pushed : Within W s ((s.touch c).modify p (·.pushResolved c)) :=
    within_touch.trans (within_modify inside fun _ => ⟨rfl, rfl⟩)
  unfold commitResolved
  dsimp only
  split
  · refine pushed.trans ?_
    exact within_modifyConf fun _ => ⟨rfl, rfl, rfl⟩
  · exact pushed

theorem within_commitGlobal (inside : W p) : Within W s (commitGlobal p s c) := by
  refine within_touch.trans (within_modify inside fun r => ?_)
  unfold Transaction.noteGlobal
  split <;> exact ⟨rfl, rfl⟩

theorem within_commitDeletedStructural (inside : W p) : Within W s (commitDeletedStructural p s c) := by
  have taken : Within W s ((s.touch c).modify p (·.takeDeleted true c)) := by
    refine within_touch.trans (within_modify inside fun r => ?_)
    unfold Transaction.takeDeleted
    split <;> exact ⟨rfl, rfl⟩
  unfold commitDeletedStructural
  dsimp only
  split
  · exact taken.trans within_destroy
  · exact taken

theorem within_commitNew (inside : W p) : Within W s (commitNew k p s c) := by
  have pushed : Within W s ((s.touch c).modify p (·.pushNew k c)) :=
    within_touch.trans (within_modify inside fun _ => ⟨rfl, rfl⟩)
  refine pushed.trans ?_
  exact within_modifyConf fun _ => ⟨rfl, rfl, rfl⟩

/-! The loops of the toplevel's commit -/

/-- All but the conflicts and their memory. -/
def frame (s : Config N S) :=
  (s.trans, s.alive, s.stale, s.transaction, s.nextTransaction, s.nextConflict, s.value, s.active, s.valuable,
    fun c => (s.conf c).node, fun c => (s.conf c).property, fun c => (s.conf c).structural)

theorem frame_modifyConf {f : Conflict N S → Conflict N S} (keeps : ∀ conf, (f conf).node = conf.node ∧
    (f conf).property = conf.property ∧ (f conf).structural = conf.structural) :
    (s.modifyConf c f).frame = s.frame := by
  have fields (d : Nat) : ((s.modifyConf c f).conf d).node = (s.conf d).node ∧
      ((s.modifyConf c f).conf d).property = (s.conf d).property ∧
      ((s.modifyConf c f).conf d).structural = (s.conf d).structural := by
    by_cases is : d = c
    · subst is
      simpa [modifyConf] using keeps (s.conf d)
    · simp [modifyConf, is]
  simp only [frame, fields]
  rfl

theorem frame_commitTopNew : (commitTopNew k s c).frame = s.frame := by
  refine (frame_modifyConf ?_).trans rfl
  exact fun _ => ⟨rfl, rfl, rfl⟩

theorem frame_commitTopResolved : (commitTopResolved s c).frame = s.frame := by
  unfold commitTopResolved
  dsimp only
  split <;> rfl

theorem frame_clearSolution : (clearSolution s c).frame = s.frame := frame_modifyConf fun _ => ⟨rfl, rfl, rfl⟩

theorem commitTopNew_owner : ((commitTopNew k s c).conf d).transaction =
    if d = c then none else (s.conf d).transaction := by
  by_cases here : d = c
  · subst here
    simp [commitTopNew, modifyConf]
  · simp [commitTopNew, modifyConf, here, touch]

theorem commitTopResolved_conf : (commitTopResolved s c).conf = s.conf ∧
    (commitTopResolved s c).conflicts = s.conflicts := by
  unfold commitTopResolved
  dsimp only
  split <;> exact ⟨rfl, rfl⟩

theorem foldl_commitTopNew (l : List Nat) {j : Bool} : (l.foldl (commitTopNew k) s).conflicts j =
    if j = k then s.conflicts k ++ l else s.conflicts j := by
  induction l generalizing s with
  | nil =>
    by_cases same : j = k <;> simp [same]
  | cons c l ih =>
    rw [foldl_cons, ih]
    by_cases same : j = k
    · subst same
      simp [commitTopNew, modifyConf]
    · simp [commitTopNew, modifyConf, same, touch]

theorem foldl_commitTopDeleted (l : List Nat) {j : Bool} : (l.foldl (commitTopDeleted k) s).conflicts j =
    if j = k then (s.conflicts k).diff l else s.conflicts j := by
  induction l generalizing s with
  | nil =>
    by_cases same : j = k <;> simp [same]
  | cons c l ih =>
    rw [foldl_cons, ih]
    by_cases same : j = k
    · subst same
      simp [commitTopDeleted, destroy, diff_cons]
    · simp [commitTopDeleted, destroy, same]

theorem cancel_spec : (s.cancel t).trans t = (s.trans t).cancelled ∧
    (∀ c, ((s.cancel t).conf c).transaction = (s.conf c).transaction) ∧
    (∀ c, ((s.cancel t).conf c).structural = (s.conf c).structural) ∧ (s.cancel t).stale = s.stale ∧
    (s.cancel t).nextConflict = s.nextConflict := by
  let s₁ := ((s.trans t).resolvedConflicts.foldl (cancelResolved t)
    (((s.trans t).newConflicts true).foldl destroy (((s.trans t).newConflicts false).foldl destroy s)))
  let s₂ := (s.trans t).globalConflictsWithSolutions.foldl clearSolution s₁
  have resolved (s : Config N S) (c : Nat) : SameFiles s (cancelResolved t s c) := by
    unfold cancelResolved
    dsimp only
    split
    · exact sameFiles_touch.trans sameFiles_destroy
    · exact sameFiles_touch
  have files : SameFiles s s₂ := by
    refine SameFiles.trans ?_ (SameFiles.foldl (fun _ _ => sameFiles_clearSolution) _)
    refine SameFiles.trans ?_ (SameFiles.foldl resolved _)
    exact (SameFiles.foldl (fun _ _ => sameFiles_destroy) _).trans (SameFiles.foldl (fun _ _ => sameFiles_destroy) _)
  refine ⟨?_, files.owner, files.structural, files.stale, files.nextConflict⟩
  change (s₂.modify t Transaction.cancelled).trans t = _
  rw [modify_self, Transaction.cancelled, Transaction.cancelled, files.parent, files.conflict]

variable [DecidableEq N]

open Transaction in
theorem core_updateSolutions : core ((s.updateSolutions t v).trans p) = core (s.trans p) := by
  have validity (s : Config N S) (c : Nat) : core ((updateSolutionValidity v s c).trans p) = core (s.trans p) := rfl
  have global (s : Config N S) (c : Nat) : core ((updateGlobal t v s c).trans p) = core (s.trans p) := by
    unfold updateGlobal
    dsimp only
    split
    · exact validity s c
    · by_cases here : p = t
      · subst here
        rw [modify_self]
        exact validity s c
      · rw [modify_other here]
        exact validity s c
  exact (foldl_keeps (fun s : Config N S => core (s.trans p)) global _).trans (foldl_keeps (fun s : Config N S => core (s.trans p)) validity _)

open Transaction in
theorem core_transfer : core ((s.transfer t p).trans p) = merged (s.trans t) (core (s.trans p)) := by
  have resolved (l : List Nat) (s : Config N S) : core ((l.foldl (commitResolved t p) s).trans p) = core (s.trans p) := by
    refine foldl_keeps (fun s : Config N S => core (s.trans p)) (fun s c => ?_) l
    rw [commitResolved_trans]
    rfl
  have global (l : List Nat) (s : Config N S) : core ((l.foldl (commitGlobal p) s).trans p) = core (s.trans p) := by
    refine foldl_keeps (fun s : Config N S => core (s.trans p)) (fun s c => ?_) l
    rw [commitGlobal, modify_self]
    exact core_noteGlobal
  have deleted (conflict : Option Nat) (l : List Nat) (s : Config N S) :
      core ((l.foldl (commitDeleted conflict p) s).trans p) =
        l.foldl (fun r c => r.takeDeleted false c) (core (s.trans p)) :=
    foldl_evolves (fun s : Config N S => core (s.trans p)) (fun _ _ => core_commitDeleted) l
  have structural (l : List Nat) (s : Config N S) : core ((l.foldl (commitDeletedStructural p) s).trans p) =
      l.foldl (fun r c => r.takeDeleted true c) (core (s.trans p)) := by
    refine foldl_evolves (fun s : Config N S => core (s.trans p)) (fun s c => ?_) l
    rw [commitDeletedStructural_trans, core_takeDeleted]
  have change (l : List (Sigma fun _ : N => CdlValue S)) (s : Config N S) :
      core ((l.foldl (commitChange p) s).trans p) = l.foldl (fun r change => r.insertChange change) (core (s.trans p)) := by
    refine foldl_evolves (fun s : Config N S => core (s.trans p)) (fun s c => ?_) l
    rw [commitChange, core_updateSolutions, modify_self]
    rfl
  have new (k : Bool) (l : List Nat) (s : Config N S) : core ((l.foldl (commitNew k p) s).trans p) =
      l.foldl (fun r c => r.pushNew k c) (core (s.trans p)) := by
    refine foldl_evolves (fun s : Config N S => core (s.trans p)) (fun s c => ?_) l
    change core (((s.touch c).modify p fun r => r.pushNew k c).trans p) = _
    rw [modify_self]
    rfl
  unfold transfer merged
  rw [modify_self]
  change mergeActive (s.trans t) (core _) = _
  rw [new, new, change, structural, deleted, global, resolved]

theorem transfer_owner : ((s.transfer t p).conf d).transaction =
    if d ∈ (s.trans t).newConflicts false ∨ d ∈ (s.trans t).newConflicts true ∨
      d ∈ (s.trans t).resolvedConflicts ∧ (s.conf d).transaction = some t
    then some p else (s.conf d).transaction := by
  have global (l : List Nat) (s : Config N S) : (l.foldl (commitGlobal p) s).conf = s.conf :=
    foldl_keeps conf (by intros; rfl) l
  have deleted (conflict : Option Nat) (l : List Nat) (s : Config N S) :
      (l.foldl (commitDeleted conflict p) s).conf = s.conf :=
    foldl_keeps conf (fun _ _ => commitDeleted_conf) l
  have structural (l : List Nat) (s : Config N S) : (l.foldl (commitDeletedStructural p) s).conf = s.conf :=
    foldl_keeps conf (fun _ _ => commitDeletedStructural_conf) l
  have change (l : List (Sigma fun _ : N => CdlValue S)) (s : Config N S) :
      ((l.foldl (commitChange p) s).conf d).transaction = (s.conf d).transaction :=
    foldl_keeps (fun s : Config N S => (s.conf d).transaction)
      (fun s change => (sameFiles_updateSolutions (s := s.modify p (·.insertChange change))).owner d) l
  have new (k : Bool) (l : List Nat) (s : Config N S) : ((l.foldl (commitNew k p) s).conf d).transaction =
      if d ∈ l then some p else (s.conf d).transaction := by
    rw [← foldl_set]
    exact foldl_evolves (fun s : Config N S => (s.conf d).transaction) (fun _ _ => commitNew_owner) l
  change ((((s.trans t).newConflicts true).foldl (commitNew true p) _).conf d).transaction = _
  rw [new, new, change, structural, deleted, global, foldl_commitResolved_owner]
  split_ifs <;> tauto

theorem within_commitChange {change : Sigma fun _ : N => CdlValue S} (inside : W p) :
    Within W s (commitChange p s change) := by
  refine Within.trans ?_ (within_updateSolutions inside)
  exact within_modify inside fun _ => ⟨rfl, rfl⟩

theorem within_transfer (inside : W p) : Within W s (s.transfer t p) := by
  refine Within.trans ?_ (within_modify inside fun _ => ⟨rfl, rfl⟩)
  refine Within.trans ?_ (Within.foldl (fun _ _ => within_commitNew inside) _)
  refine Within.trans ?_ (Within.foldl (fun _ _ => within_commitNew inside) _)
  refine Within.trans ?_ (Within.foldl (fun _ _ => within_commitChange inside) _)
  refine Within.trans ?_ (Within.foldl (fun _ _ => within_commitDeletedStructural inside) _)
  refine Within.trans ?_ (Within.foldl (fun _ _ => within_commitDeleted inside) _)
  refine Within.trans ?_ (Within.foldl (fun _ _ => within_commitGlobal inside) _)
  exact Within.foldl (fun _ _ => within_commitResolved inside) _

theorem commitSub_trans (other : p ≠ t) : (s.commitSub t p).trans t = (s.trans t).committed ∧
    (s.commitSub t p).trans p = (s.transfer t p).trans p := by
  have kept : (s.transfer t p).trans t = s.trans t :=
    (within_transfer (W := (· = p)) rfl).others t (Ne.symm other)
  refine ⟨?_, modify_other other⟩
  rw [← kept]
  exact modify_self

theorem within_commitSub : Within (fun u => u = t ∨ u = p) s (s.commitSub t p) := by
  have ending (s : Config N S) (stale : Nat → Bool) (grown : ∀ u, s.stale u = true → stale u = true) :
      Within (fun u => u = t ∨ u = p) s { s with stale := stale } :=
    ⟨fun _ _ => rfl, fun _ => rfl, fun _ => rfl, rfl, grown, rfl, rfl, rfl, rfl, rfl, rfl, fun _ _ => rfl, fun _ _ => rfl,
      fun _ _ => rfl, le_rfl⟩
  refine Within.trans ?_ (ending _ _ fun u was => by simp [was])
  exact (within_transfer (.inr rfl)).trans (within_modify (.inl rfl) fun _ => ⟨rfl, rfl⟩)

theorem core_commitSub (other : p ≠ t) : ((s.commitSub t p).trans p).core = (s.trans t).merged (s.trans p).core := by
  rw [(commitSub_trans other).2]
  exact core_transfer

theorem commitSub_stale (fresh : (s.commitSub t p).stale u = false) :
    s.stale u = false ∧ (s.alive u = true → (s.trans u).parent = some p → u = t) := by
  refine ⟨?_, ?_⟩
  · by_contra was
    rw [within_commitSub.stale u (by simpa using was)] at fresh
    exact Bool.noConfusion fresh
  · intro alive parent
    by_contra other
    have alive' : (s.commitSub t p).alive u = true := (congrFun within_commitSub.alive u).trans alive
    have parent' : ((s.commitSub t p).trans u).parent = some p := (within_commitSub.parent u).trans parent
    have marked : (s.commitSub t p).stale u = ((s.transfer t p).stale u ||
      ((s.commitSub t p).alive u && ((s.commitSub t p).trans u).parent = some p && u ≠ t)) := rfl
    rw [marked, alive', parent'] at fresh
    simp [other] at fresh

theorem frame_commitTop : (s.commitTop t).frame = ({ s with
    trans := Function.update s.trans t (s.trans t).committed
    value := fun v => ((s.trans t).changes.lookup v).getD (s.value v)
    active := fun n => if n ∈ (s.trans t).deactivated then false
                       else if n ∈ (s.trans t).activated then true
                       else s.active n } : Config N S).frame := by
  have new (k : Bool) (l : List Nat) (s : Config N S) : (l.foldl (commitTopNew k) s).frame = s.frame :=
    foldl_keeps frame (fun _ _ => frame_commitTopNew) l
  have resolved (l : List Nat) (s : Config N S) : (l.foldl commitTopResolved s).frame = s.frame :=
    foldl_keeps frame (fun _ _ => frame_commitTopResolved) l
  have deleted (k : Bool) (l : List Nat) (s : Config N S) : (l.foldl (commitTopDeleted k) s).frame = s.frame :=
    foldl_keeps frame (by intros; rfl) l
  have global (l : List Nat) (s : Config N S) : (l.foldl clearSolution s).frame = s.frame :=
    foldl_keeps frame (fun _ _ => frame_clearSolution) l
  have ending (s₁ s₂ : Config N S) (same : s₁.frame = s₂.frame) (active : (N → Bool) → N → Bool) :
      (({ s₁ with active := active s₁.active } : Config N S).modify t Transaction.committed).frame =
        (({ s₂ with active := active s₂.active } : Config N S).modify t Transaction.committed).frame := by
    simp only [frame, modify, Prod.mk.injEq] at same ⊢
    obtain ⟨trans, alive, stale, transaction, nextTransaction, nextConflict, value, held, valuable, rest⟩ := same
    exact ⟨by rw [trans], alive, stale, transaction, nextTransaction, nextConflict, value, by rw [held], valuable, rest⟩
  refine (ending _ { s with value := fun v => ((s.trans t).changes.lookup v).getD (s.value v) } ?_
    fun active n => if n ∈ (s.trans t).deactivated then false
                    else if n ∈ (s.trans t).activated then true
                    else active n).trans rfl
  rw [global, deleted, deleted, resolved, new, new]

theorem commitTop_conflicts : (s.commitTop t).conflicts k =
    (s.conflicts k ++ (s.trans t).newConflicts k).diff ((s.trans t).deletedConflicts k) := by
  have resolved (l : List Nat) (s : Config N S) : (l.foldl commitTopResolved s).conflicts = s.conflicts :=
    foldl_keeps conflicts (fun _ _ => commitTopResolved_conf.2) l
  have global (l : List Nat) (s : Config N S) : (l.foldl clearSolution s).conflicts = s.conflicts :=
    foldl_keeps conflicts (by intros; rfl) l
  change (((s.trans t).globalConflictsWithSolutions.foldl clearSolution _).conflicts) k = _
  rw [global, foldl_commitTopDeleted, foldl_commitTopDeleted, foldl_commitTopDeleted, resolved]
  cases k with
  | false => simp [foldl_commitTopNew]
  | true => simp [foldl_commitTopNew]

theorem commitTop_owner : ((s.commitTop t).conf d).transaction =
    if d ∈ (s.trans t).newConflicts false ∨ d ∈ (s.trans t).newConflicts true then none
    else (s.conf d).transaction := by
  have new (k : Bool) (l : List Nat) (s : Config N S) : ((l.foldl (commitTopNew k) s).conf d).transaction =
      if d ∈ l then none else (s.conf d).transaction := by
    rw [← foldl_set]
    exact foldl_evolves (fun s : Config N S => (s.conf d).transaction) (fun _ _ => commitTopNew_owner) l
  have resolved (l : List Nat) (s : Config N S) : (l.foldl commitTopResolved s).conf = s.conf :=
    foldl_keeps conf (fun _ _ => commitTopResolved_conf.1) l
  have deleted (k : Bool) (l : List Nat) (s : Config N S) : (l.foldl (commitTopDeleted k) s).conf = s.conf :=
    foldl_keeps conf (by intros; rfl) l
  have global (l : List Nat) (s : Config N S) :
      ((l.foldl clearSolution s).conf d).transaction = (s.conf d).transaction :=
    foldl_keeps (fun s : Config N S => (s.conf d).transaction) (fun _ _ => sameFiles_clearSolution.owner d) l
  change (((s.trans t).globalConflictsWithSolutions.foldl clearSolution _).conf d).transaction = _
  rw [global, deleted, deleted, resolved, new, new]
  split_ifs <;> tauto

end Config

end Ecos.Cdl
