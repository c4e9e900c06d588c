import Ecos.Cdl.TransactFiles

namespace Ecos.Cdl.Config
open List Transaction Config
variable {N S : Type*} {s s' : Config N S} {t u p c d a : Nat} {v : N} {k : Bool}

/-! Loops over pointers -/

section Loops
variable {α : Type*} {f : Config N S → α → Config N S} {h : Config N S → Nat → Config N S} {l : List Nat}

theorem foldl_looks (g : α → Nat) (live : ∀ s x, (f s x).live = s.live)
    (fault : ∀ s x, (f s x).fault = (s.fault || !s.live (g x))) (l : List α) :
    (l.foldl f s).live = s.live ∧ ((∀ x ∈ l, s.live (g x) = true) → (l.foldl f s).fault = s.fault) := by
  induction l generalizing s with
  | nil => exact ⟨rfl, fun _ => rfl⟩
  | cons x l ih =>
    obtain ⟨same, safe⟩ := ih (s := f s x)
    refine ⟨same.trans (live s x), fun all => (safe ?_).trans ?_⟩
    · rw [live]
      exact fun y mem => all y (mem_cons_of_mem _ mem)
    · rw [fault, all x mem_cons_self]
      simp

theorem foldl_destroys (D : Config N S → Nat → Bool) (stable : ∀ s c d, d ≠ c → D (h s c) d = D s d)
    (live : ∀ s c d, (h s c).live d = (s.live d && !(decide (d = c) && D s c)))
    (fault : ∀ s c, (h s c).fault = (s.fault || !s.live c)) (nodup : l.Nodup) :
    (∀ d, (l.foldl h s).live d = (s.live d && !(decide (d ∈ l) && D s d))) ∧
      ((∀ c ∈ l, s.live c = true) → (l.foldl h s).fault = s.fault) := by
  induction l generalizing s with
  | nil => exact ⟨fun d => by simp, fun _ => rfl⟩
  | cons c l ih =>
    obtain ⟨fresh, nodup⟩ := nodup_cons.mp nodup
    obtain ⟨after, safe⟩ := ih (s := h s c) nodup
    refine ⟨fun d => ?_, fun all => (safe ?_).trans ?_⟩
    · rw [foldl_cons, after, live]
      by_cases here : d = c
      · subst here
        simp [fresh]
      · rw [stable s c d here]
        simp [here]
    · intro d mem
      have other : d ≠ c := fun is => fresh (is ▸ mem)
      rw [live, all d (mem_cons_of_mem _ mem)]
      simp [other]
    · rw [fault, all c mem_cons_self]
      simp

end Loops

theorem destroy_live : (s.destroy c).live d = (s.live d && !(decide (d = c) && true)) := by
  by_cases here : d = c <;> simp [destroy, here]

theorem touch_destroy_fault : ((s.touch c).destroy c).fault = (s.fault || !s.live c) := by
  simp [touch, destroy]

theorem foldl_destroy {l : List Nat} (nodup : l.Nodup) :
    (∀ d, (l.foldl destroy s).live d = (s.live d && !decide (d ∈ l))) ∧
      ((∀ c ∈ l, s.live c = true) → (l.foldl destroy s).fault = s.fault) := by
  obtain ⟨live, fault⟩ := foldl_destroys (s := s) (h := destroy) (fun _ _ => true) (fun _ _ _ _ => rfl)
    (fun _ _ _ => destroy_live) (fun _ _ => rfl) nodup
  exact ⟨fun d => by rw [live, Bool.and_true], fault⟩

/-! What solutions need -/

theorem updateGlobal_memory [DecidableEq N] : (updateGlobal t v s c).live = s.live ∧
    (updateGlobal t v s c).fault = (s.fault || !s.live c) := by
  unfold updateGlobal
  dsimp only
  split <;> exact ⟨rfl, rfl⟩

theorem updateGlobal_globals [DecidableEq N] (u : Nat) : ((updateGlobal t v s c).trans u).globalConflictsWithSolutions.Sublist
    (s.trans u).globalConflictsWithSolutions := by
  unfold updateGlobal
  dsimp only
  split
  · exact .refl _
  · by_cases same : u = t
    · subst same
      rw [modify_self]
      exact erase_sublist
    · rw [modify_other same]
      exact .refl _

theorem updateSolutions_memory [DecidableEq N] : (s.updateSolutions t v).live = s.live ∧
    ((∀ c ∈ (s.trans t).newConflicts false, s.live c = true) →
      (∀ c ∈ (s.trans t).globalConflictsWithSolutions, s.live c = true) → (s.updateSolutions t v).fault = s.fault) ∧
    ∀ u, ((s.updateSolutions t v).trans u).globalConflictsWithSolutions.Sublist
      (s.trans u).globalConflictsWithSolutions := by
  let s₁ := ((s.trans t).newConflicts false).foldl (updateSolutionValidity v) s
  obtain ⟨live₁, safe₁⟩ := foldl_looks (s := s) (f := updateSolutionValidity v) id (fun _ _ => rfl) (fun _ _ => rfl)
    ((s.trans t).newConflicts false)
  obtain ⟨live₂, safe₂⟩ := foldl_looks (s := s₁) (f := updateGlobal t v) id (fun _ _ => updateGlobal_memory.1)
    (fun _ _ => updateGlobal_memory.2) (s₁.trans t).globalConflictsWithSolutions
  have same : s₁.trans = s.trans := foldl_keeps trans (by intros; rfl) _
  refine ⟨live₂.trans live₁, ?_, ?_⟩
  · intro new globals
    refine (safe₂ ?_).trans (safe₁ new)
    rw [same]
    intro c mem
    exact (congrFun live₁ c).trans (globals c mem)
  · intro u
    rw [← same]
    change (((s₁.trans t).globalConflictsWithSolutions.foldl (updateGlobal t v) s₁).trans u).globalConflictsWithSolutions.Sublist _
    generalize (s₁.trans t).globalConflictsWithSolutions = l
    generalize s₁ = s₂
    induction l generalizing s₂ with
    | nil => exact .refl _
    | cons c l ih => exact (ih (updateGlobal t v s₂ c)).trans (updateGlobal_globals u)

theorem access_memory [DecidableEq N] (above : List Nat) : (s.access v above).2.live = s.live ∧
    (s.access v above).2.trans = s.trans ∧
    ((∀ a ∈ above, ∀ c, (s.trans a).conflict = some c → s.live c = true) →
      (s.access v above).2.fault = s.fault) := by
  induction above generalizing s with
  | nil => exact ⟨rfl, rfl, fun _ => rfl⟩
  | cons a above ih =>
    obtain ⟨noted, how, run⟩ := s.access_cons v a above
    have same : noted.live = s.live ∧ noted.trans = s.trans ∧
        ((∀ c, (s.trans a).conflict = some c → s.live c = true) → noted.fault = s.fault) := by
      rcases how with ⟨-, rfl⟩ | ⟨c, made, rfl⟩
      · exact ⟨rfl, rfl, fun _ => rfl⟩
      · refine ⟨rfl, rfl, fun safe => ?_⟩
        change (s.fault || !s.live c) = s.fault
        simp [safe c made]
    obtain ⟨live, trans, fault⟩ := same
    obtain ⟨live', trans', fault'⟩ := ih (s := noted)
    rw [live, trans] at fault'
    rcases run with ⟨value, -, run⟩ | ⟨-, run⟩
    · rw [run]
      exact ⟨live, trans, fun all => fault (all a mem_cons_self)⟩
    · rw [run]
      exact ⟨live'.trans live, trans'.trans trans, fun all =>
        (fault' fun b mem => all b (mem_cons_of_mem _ mem)).trans (fault (all a mem_cons_self))⟩

/-! Cancel -/

theorem cancelResolved_memory : (cancelResolved t s c).live d =
    (s.live d && !(decide (d = c) && decide ((s.conf c).transaction = some t))) ∧
    (cancelResolved t s c).fault = (s.fault || !s.live c) := by
  by_cases owned : (s.conf c).transaction = some t
  · have step : cancelResolved t s c = (s.touch c).destroy c := if_pos owned
    rw [step]
    refine ⟨?_, touch_destroy_fault⟩
    rw [destroy_live]
    simp [owned, touch]
  · have step : cancelResolved t s c = s.touch c := if_neg owned
    rw [step]
    refine ⟨?_, rfl⟩
    simp [owned, touch]

theorem cancelResolved_conf : (cancelResolved t s c).conf = s.conf := by
  unfold cancelResolved
  dsimp only
  split <;> rfl

theorem cancel_memory (newNodup : ∀ k, ((s.trans t).newConflicts k).Nodup)
    (resolvedNodup : (s.trans t).resolvedConflicts.Nodup) :
    (∀ d, (s.cancel t).live d = (s.live d && !(decide (d ∈ (s.trans t).newConflicts false) ||
      decide (d ∈ (s.trans t).newConflicts true) ||
      decide (d ∈ (s.trans t).resolvedConflicts) && decide ((s.conf d).transaction = some t)))) ∧
    ((∀ k, ∀ c ∈ (s.trans t).newConflicts k, s.live c = true ∧ c ∉ (s.trans t).newConflicts (!k) ∧
        c ∉ (s.trans t).resolvedConflicts ∧ c ∉ (s.trans t).globalConflictsWithSolutions) →
      (∀ c ∈ (s.trans t).resolvedConflicts, s.live c = true) →
      (∀ c ∈ (s.trans t).globalConflictsWithSolutions, s.live c = true ∧ (s.conf c).transaction ≠ some t) →
      (s.cancel t).fault = s.fault) := by
  let s₁ := ((s.trans t).newConflicts false).foldl destroy s
  let s₂ := ((s.trans t).newConflicts true).foldl destroy s₁
  let s₃ := (s.trans t).resolvedConflicts.foldl (cancelResolved t) s₂
  obtain ⟨live₁, safe₁⟩ := foldl_destroy (s := s) (newNodup false)
  obtain ⟨live₂, safe₂⟩ := foldl_destroy (s := s₁) (newNodup true)
  have conf₂ : s₂.conf = s.conf := (foldl_keeps conf (by intros; rfl) _).trans
    (foldl_keeps conf (by intros; rfl) _)
  obtain ⟨live₃, safe₃⟩ := foldl_destroys (s := s₂) (h := cancelResolved t)
    (fun s c => decide ((s.conf c).transaction = some t)) (fun s c d _ => by rw [cancelResolved_conf])
    (fun _ _ _ => cancelResolved_memory.1) (fun s c => (cancelResolved_memory (d := c)).2) resolvedNodup
  obtain ⟨live₄, safe₄⟩ := foldl_looks (s := s₃) (f := clearSolution) id (fun _ _ => rfl) (fun _ _ => rfl)
    (s.trans t).globalConflictsWithSolutions
  have left₂ (d : Nat) : s₂.live d = (s.live d && !(decide (d ∈ (s.trans t).newConflicts false) ||
      decide (d ∈ (s.trans t).newConflicts true))) := by
    rw [live₂, live₁, Bool.and_assoc, Bool.not_or]
  have left₃ (d : Nat) : s₃.live d = (s.live d && !(decide (d ∈ (s.trans t).newConflicts false) ||
      decide (d ∈ (s.trans t).newConflicts true) ||
      decide (d ∈ (s.trans t).resolvedConflicts) && decide ((s.conf d).transaction = some t))) := by
    rw [live₃, left₂, conf₂, Bool.and_assoc, ← Bool.not_or]
  refine ⟨fun d => (congrFun live₄ d).trans (left₃ d), ?_⟩
  intro new resolved globals
  refine (safe₄ ?_).trans ((safe₃ ?_).trans ((safe₂ ?_).trans (safe₁ ?_)))
  · intro c mem
    have notNew (k : Bool) : c ∉ (s.trans t).newConflicts k := fun made => (new k c made).2.2.2 mem
    rw [id, left₃, (globals c mem).1]
    simp [notNew, (globals c mem).2]
  · intro c mem
    have notNew (k : Bool) : c ∉ (s.trans t).newConflicts k := fun made => (new k c made).2.2.1 mem
    rw [left₂, resolved c mem]
    simp [notNew]
  · intro c mem
    rw [live₁, (new true c mem).1]
    simpa using (new true c mem).2.1
  · exact fun c mem => (new false c mem).1

/-! Commit -/

theorem commitResolved_memory : (commitResolved t p s c).live = s.live ∧
    (commitResolved t p s c).fault = (s.fault || !s.live c) := by
  unfold commitResolved
  dsimp only
  split <;> exact ⟨rfl, rfl⟩

theorem commitDeleted_memory {conflict : Option Nat} : (commitDeleted conflict p s c).live d =
    (s.live d && !(decide (d = c) && (decide (c ∈ (s.trans p).newConflicts false) && decide (conflict ≠ some c)))) ∧
    (commitDeleted conflict p s c).fault = (s.fault || !s.live c) := by
  let s₁ := if (s.conf c).transaction = none
    then ((s.touch c).modify p fun r => r.takeDeleted false c).modify p fun r => r.eraseGlobal c
    else (s.touch c).modify p fun r => r.takeDeleted false c
  have looked : s₁.live = s.live ∧ s₁.fault = (s.fault || !s.live c) := by
    dsimp only [s₁]
    split <;> exact ⟨rfl, rfl⟩
  change (if conflict = some c then s₁.modify p fun r => r.noteResolved c
      else if decide (c ∈ (s.trans p).newConflicts false) = true then s₁.destroy c else s₁).live d = _ ∧
    (if conflict = some c then s₁.modify p fun r => r.noteResolved c
      else if decide (c ∈ (s.trans p).newConflicts false) = true then s₁.destroy c else s₁).fault = _
  by_cases same : conflict = some c
  · rw [if_pos same]
    refine ⟨?_, looked.2⟩
    change s₁.live d = _
    rw [looked.1]
    simp [same]
  · rw [if_neg same]
    by_cases own : c ∈ (s.trans p).newConflicts false
    · rw [if_pos (by simpa using own)]
      refine ⟨?_, ?_⟩
      · rw [destroy_live, looked.1]
        simp [same, own]
      · change (s₁.fault || !s₁.live c) = _
        rw [looked.1, looked.2, Bool.or_assoc, Bool.or_self]
    · rw [if_neg (by simpa using own)]
      refine ⟨?_, looked.2⟩
      rw [looked.1]
      simp [own]

theorem commitDeletedStructural_memory : (commitDeletedStructural p s c).live d =
    (s.live d && !(decide (d = c) && decide (c ∈ (s.trans p).newConflicts true))) ∧
    (commitDeletedStructural p s c).fault = (s.fault || !s.live c) := by
  by_cases own : c ∈ (s.trans p).newConflicts true
  · have step : commitDeletedStructural p s c = ((s.touch c).modify p (·.takeDeleted true c)).destroy c :=
      if_pos (by simpa using own)
    rw [step]
    refine ⟨?_, touch_destroy_fault⟩
    rw [destroy_live]
    simp [own, modify, touch]
  · have step : commitDeletedStructural p s c = (s.touch c).modify p (·.takeDeleted true c) :=
      if_neg (by simpa using own)
    rw [step]
    refine ⟨?_, rfl⟩
    simp [own, modify, touch]

/-- A conflict of the parent that the commit of a sub-transaction destroys. -/
def Destroys (s : Config N S) (t p : Nat) (k : Bool) (c : Nat) : Prop :=
  c ∈ (s.trans t).deletedConflicts k ∧ c ∈ (s.trans p).newConflicts k ∧ ¬ (k = false ∧ (s.trans t).conflict = some c)

instance : Decidable (s.Destroys t p k c) :=
  inferInstanceAs (Decidable (c ∈ (s.trans t).deletedConflicts k ∧ c ∈ (s.trans p).newConflicts k ∧
    ¬ (k = false ∧ (s.trans t).conflict = some c)))

/-- What the loops of a commit look at. -/
structure Ready (s : Config N S) (t p : Nat) : Prop where
  other : p ≠ t
  resolved : ∀ c ∈ (s.trans t).resolvedConflicts, s.live c = true
  globals : (s.trans t).globalConflictsWithSolutions = []
  deleted : ∀ k, ∀ c ∈ (s.trans t).deletedConflicts k, s.live c = true ∧ c ∉ (s.trans t).deletedConflicts (!k)
  deletedNodup : ∀ k, ((s.trans t).deletedConflicts k).Nodup
  newNodup : ∀ k, ((s.trans p).newConflicts k).Nodup
  newSub : ∀ k, ∀ c ∈ (s.trans t).newConflicts k, s.live c = true ∧ ∀ j, c ∉ (s.trans t).deletedConflicts j
  new : ∀ k, ∀ c ∈ (s.trans p).newConflicts k, s.live c = true ∧ c ∉ (s.trans p).newConflicts (!k)
  globalsUp : ∀ c ∈ (s.trans p).globalConflictsWithSolutions, s.live c = true ∧ ∀ j, c ∉ (s.trans p).newConflicts j

theorem commitDeleted_globals {conflict : Option Nat} :
    ((commitDeleted conflict p s c).trans p).globalConflictsWithSolutions =
      if (s.conf c).transaction = none then (s.trans p).globalConflictsWithSolutions.erase c
      else (s.trans p).globalConflictsWithSolutions := by
  have taken (r : Transaction N S) : (r.takeDeleted false c).globalConflictsWithSolutions =
      r.globalConflictsWithSolutions := by
    unfold takeDeleted
    split <;> rfl
  have noted (r : Transaction N S) : (r.noteResolved c).globalConflictsWithSolutions =
      r.globalConflictsWithSolutions := by
    unfold noteResolved
    split <;> rfl
  rw [commitDeleted_trans]
  dsimp only
  by_cases global : (s.conf c).transaction = none
  · rw [if_pos global, if_pos global]
    split
    · rw [noted, eraseGlobal, taken]
    · rw [eraseGlobal, taken]
  · rw [if_neg global, if_neg global]
    split
    · rw [noted, taken]
    · rw [taken]

theorem commitDeleted_resolved {conflict : Option Nat} : ((commitDeleted conflict p s c).trans p).resolvedConflicts =
      if conflict = some c ∧ c ∉ (s.trans p).resolvedConflicts then (s.trans p).resolvedConflicts ++ [c]
      else (s.trans p).resolvedConflicts := by
  let r := if (s.conf c).transaction = none then ((s.trans p).takeDeleted false c).eraseGlobal c
    else (s.trans p).takeDeleted false c
  have taken : r.resolvedConflicts = (s.trans p).resolvedConflicts := by
    have plain : ((s.trans p).takeDeleted false c).resolvedConflicts = (s.trans p).resolvedConflicts := by
      unfold takeDeleted
      split <;> rfl
    dsimp only [r]
    split <;> exact plain
  rw [commitDeleted_trans]
  change (if conflict = some c then r.noteResolved c else r).resolvedConflicts = _
  by_cases same : conflict = some c
  · rw [if_pos same]
    unfold noteResolved
    by_cases already : c ∈ (s.trans p).resolvedConflicts
    · rw [if_pos (taken ▸ already), if_neg fun both => both.2 already]
      exact taken
    · rw [if_neg (taken ▸ already), if_pos ⟨same, already⟩, pushResolved, taken]
  · rw [if_neg same, if_neg fun both => same both.1]
    exact taken

theorem foldl_commitDeleted_globals (conflict : Option Nat) (l : List Nat)
    (nodup : (s.trans p).globalConflictsWithSolutions.Nodup) :
    ((l.foldl (commitDeleted conflict p) s).trans p).globalConflictsWithSolutions.Sublist
        (s.trans p).globalConflictsWithSolutions ∧
      ∀ c ∈ l, (s.conf c).transaction = none →
        c ∉ ((l.foldl (commitDeleted conflict p) s).trans p).globalConflictsWithSolutions := by
  induction l generalizing s with
  | nil => exact ⟨.refl _, fun c mem => absurd mem not_mem_nil⟩
  | cons c l ih =>
    let s₁ := commitDeleted conflict p s c
    have step : (s₁.trans p).globalConflictsWithSolutions = if (s.conf c).transaction = none
        then (s.trans p).globalConflictsWithSolutions.erase c else (s.trans p).globalConflictsWithSolutions :=
      commitDeleted_globals
    have fewer : (s₁.trans p).globalConflictsWithSolutions.Sublist (s.trans p).globalConflictsWithSolutions := by
      rw [step]
      split
      · exact erase_sublist
      · exact .refl _
    obtain ⟨later, gone⟩ := ih (s := s₁) (fewer.nodup nodup)
    refine ⟨later.trans fewer, fun d mem global => ?_⟩
    rcases mem_cons.mp mem with rfl | mem
    · intro still
      have here := later.subset still
      rw [step, if_pos global] at here
      exact nodup.not_mem_erase here
    · refine gone d mem ?_
      rwa [show s₁.conf = s.conf from commitDeleted_conf]

theorem foldl_commitDeleted_resolved (conflict : Option Nat) (l : List Nat)
    (nodup : (s.trans p).resolvedConflicts.Nodup) :
    ((l.foldl (commitDeleted conflict p) s).trans p).resolvedConflicts.Nodup ∧
      ∀ d, d ∈ ((l.foldl (commitDeleted conflict p) s).trans p).resolvedConflicts ↔
        d ∈ (s.trans p).resolvedConflicts ∨ d ∈ l ∧ conflict = some d := by
  induction l generalizing s with
  | nil => exact ⟨nodup, fun d => by simp⟩
  | cons c l ih =>
    let s₁ := commitDeleted conflict p s c
    have step : (s₁.trans p).resolvedConflicts = if conflict = some c ∧ c ∉ (s.trans p).resolvedConflicts
        then (s.trans p).resolvedConflicts ++ [c] else (s.trans p).resolvedConflicts := commitDeleted_resolved
    have one : (s₁.trans p).resolvedConflicts.Nodup ∧ ∀ d, d ∈ (s₁.trans p).resolvedConflicts ↔
        d ∈ (s.trans p).resolvedConflicts ∨ d = c ∧ conflict = some c := by
      rw [step]
      split
      · rename_i fresh
        refine ⟨Nodup.append nodup (nodup_singleton c) ?_, fun d => ?_⟩
        · rw [disjoint_singleton]
          exact fresh.2
        · simp [fresh.1]
      · rename_i known
        refine ⟨nodup, fun d => ⟨.inl, ?_⟩⟩
        rintro (mem | ⟨rfl, same⟩)
        · exact mem
        · by_contra absent
          exact known ⟨same, absent⟩
    obtain ⟨nodup', members⟩ := ih (s := s₁) one.1
    refine ⟨nodup', fun d => ?_⟩
    rw [foldl_cons, members, one.2, mem_cons]
    constructor
    · rintro ((mem | ⟨rfl, same⟩) | ⟨mem, same⟩)
      · exact .inl mem
      · exact .inr ⟨.inl rfl, same⟩
      · exact .inr ⟨.inr mem, same⟩
    · rintro (mem | ⟨rfl | mem, same⟩)
      · exact .inl (.inl mem)
      · exact .inl (.inr ⟨rfl, same⟩)
      · exact .inr ⟨mem, same⟩

theorem foldl_commitResolved_resolved (l : List Nat) :
    ((l.foldl (commitResolved t p) s).trans p).resolvedConflicts = (s.trans p).resolvedConflicts ++ l ∧
      ((l.foldl (commitResolved t p) s).trans p).globalConflictsWithSolutions =
        (s.trans p).globalConflictsWithSolutions ∧
      ((l.foldl (commitResolved t p) s).trans p).newConflicts = (s.trans p).newConflicts := by
  induction l generalizing s with
  | nil => simp
  | cons c l ih =>
    obtain ⟨resolved, globals, new⟩ := ih (s := commitResolved t p s c)
    rw [commitResolved_trans] at resolved globals new
    refine ⟨resolved.trans ?_, globals, new⟩
    simp [pushResolved]

/-- The state of a commit when the cleared conflicts have been dealt with. -/
def settled (s : Config N S) (t p : Nat) : Config N S :=
  let this := s.trans t
  let s := this.resolvedConflicts.foldl (commitResolved t p) s
  let s := this.globalConflictsWithSolutions.foldl (commitGlobal p) s
  let s := (this.deletedConflicts false).foldl (commitDeleted this.conflict p) s
  (this.deletedConflicts true).foldl (commitDeletedStructural p) s

/-- Up to there what the parent loses is destroyed, unless the sub-transaction was made for it. -/
theorem Ready.settled (ready : s.Ready t p) :
    (∀ d, (s.settled t p).live d = (s.live d && !(decide (s.Destroys t p false d) || decide (s.Destroys t p true d)))) ∧
    (s.settled t p).fault = s.fault ∧
    (∀ k, ((s.settled t p).trans p).newConflicts k =
      ((s.trans p).newConflicts k).diff ((s.trans t).deletedConflicts k)) := by
  let s₁ := (s.trans t).resolvedConflicts.foldl (commitResolved t p) s
  let s₃ := ((s.trans t).deletedConflicts false).foldl (commitDeleted (s.trans t).conflict p) s₁
  have stages : s.settled t p = ((s.trans t).deletedConflicts true).foldl (commitDeletedStructural p) s₃ := by
    dsimp only [Config.settled]
    rw [ready.globals]
    rfl
  obtain ⟨live₁, safe₁⟩ := foldl_looks (s := s) (f := commitResolved t p) id (fun _ _ => commitResolved_memory.1)
    (fun _ _ => commitResolved_memory.2) (s.trans t).resolvedConflicts
  have new₁ : (s₁.trans p).newConflicts = (s.trans p).newConflicts := (foldl_commitResolved_resolved _).2.2
  have taken (conflict : Option Nat) (s : Config N S) (c : Nat) (k : Bool) :
      ((commitDeleted conflict p s c).trans p).newConflicts k =
        if k = false then ((s.trans p).newConflicts false).erase c else (s.trans p).newConflicts k := by
    have core := congrArg (newConflicts · k) (@core_commitDeleted _ _ s p c conflict)
    exact core.trans takeDeleted_new
  have takenStructural (s : Config N S) (c : Nat) (k : Bool) :
      ((commitDeletedStructural p s c).trans p).newConflicts k =
        if k = true then ((s.trans p).newConflicts true).erase c else (s.trans p).newConflicts k := by
    rw [commitDeletedStructural_trans]
    exact takeDeleted_new
  have new₃ (k : Bool) : (s₃.trans p).newConflicts k =
      if k = false then ((s.trans p).newConflicts false).diff ((s.trans t).deletedConflicts false)
      else (s.trans p).newConflicts k := by
    rw [← new₁]
    dsimp only [s₃]
    generalize (s.trans t).deletedConflicts false = l
    generalize s₁ = s₂
    induction l generalizing s₂ with
    | nil => cases k <;> simp
    | cons c l ih =>
      rw [foldl_cons, ih, taken, taken]
      cases k with
      | false => simp [diff_cons]
      | true => simp
  have new₄ (k : Bool) : ((s.settled t p).trans p).newConflicts k =
      if k = true then ((s₃.trans p).newConflicts true).diff ((s.trans t).deletedConflicts true)
      else (s₃.trans p).newConflicts k := by
    rw [stages]
    generalize (s.trans t).deletedConflicts true = l
    generalize s₃ = s₂
    induction l generalizing s₂ with
    | nil => cases k <;> simp
    | cons c l ih =>
      rw [foldl_cons, ih, takenStructural, takenStructural]
      cases k with
      | true => simp [diff_cons]
      | false => simp
  obtain ⟨live₃, safe₃⟩ := foldl_destroys (s := s₁) (h := commitDeleted (s.trans t).conflict p)
    (fun s' c => decide (c ∈ (s'.trans p).newConflicts false) && decide ((s.trans t).conflict ≠ some c))
    (fun s' c d other => by simp only [taken, if_pos, mem_erase_of_ne other])
    (fun _ _ _ => commitDeleted_memory.1) (fun s' c => (commitDeleted_memory (d := c)).2) (ready.deletedNodup false)
  obtain ⟨live₄, safe₄⟩ := foldl_destroys (s := s₃) (h := commitDeletedStructural p)
    (fun s' c => decide (c ∈ (s'.trans p).newConflicts true))
    (fun s' c d other => by simp only [takenStructural, if_pos, mem_erase_of_ne other])
    (fun _ _ _ => commitDeletedStructural_memory.1) (fun s' c => (commitDeletedStructural_memory (d := c)).2)
    (ready.deletedNodup true)
  have left₁ (d : Nat) : s₁.live d = s.live d := congrFun live₁ d
  have left₃ (d : Nat) : s₃.live d = (s.live d && !decide (s.Destroys t p false d)) := by
    rw [live₃, left₁, new₁]
    simp [Destroys]
  refine ⟨fun d => ?_, ?_, fun k => ?_⟩
  · rw [stages, live₄, left₃, new₃, if_neg (by simp), Bool.and_assoc, ← Bool.not_or]
    simp [Destroys]
  · rw [stages]
    refine (safe₄ ?_).trans ((safe₃ ?_).trans (safe₁ ready.resolved))
    · intro c mem
      obtain ⟨live, apart⟩ := ready.deleted true c mem
      have survives : ¬ s.Destroys t p false c := fun destroyed => apart destroyed.1
      rw [left₃, live]
      simp [survives]
    · intro c mem
      rw [left₁]
      exact (ready.deleted false c mem).1
  · rw [new₄, new₃, new₃]
    cases k with
    | false => simp
    | true => simp

theorem settled_lists (globals : (s.trans t).globalConflictsWithSolutions = [])
    (globalsNodup : (s.trans p).globalConflictsWithSolutions.Nodup)
    (resolvedNodup : ((s.trans p).resolvedConflicts ++ (s.trans t).resolvedConflicts).Nodup) :
    ((s.settled t p).trans p).globalConflictsWithSolutions.Sublist (s.trans p).globalConflictsWithSolutions ∧
    (∀ c ∈ (s.trans t).deletedConflicts false, (s.conf c).transaction = none →
      c ∉ ((s.settled t p).trans p).globalConflictsWithSolutions) ∧
    ((s.settled t p).trans p).resolvedConflicts.Nodup ∧
    ∀ d, d ∈ ((s.settled t p).trans p).resolvedConflicts ↔ d ∈ (s.trans p).resolvedConflicts ∨
      d ∈ (s.trans t).resolvedConflicts ∨ d ∈ (s.trans t).deletedConflicts false ∧ (s.trans t).conflict = some d := by
  let s₁ := (s.trans t).resolvedConflicts.foldl (commitResolved t p) s
  let s₃ := ((s.trans t).deletedConflicts false).foldl (commitDeleted (s.trans t).conflict p) s₁
  have stages : s.settled t p = ((s.trans t).deletedConflicts true).foldl (commitDeletedStructural p) s₃ := by
    dsimp only [settled]
    rw [globals]
    rfl
  obtain ⟨resolved₁, globals₁, -⟩ := foldl_commitResolved_resolved (s := s) (t := t) (p := p) (s.trans t).resolvedConflicts
  have taken (r : Transaction N S) (c : Nat) : (r.takeDeleted true c).globalConflictsWithSolutions =
      r.globalConflictsWithSolutions ∧ (r.takeDeleted true c).resolvedConflicts = r.resolvedConflicts := by
    unfold takeDeleted
    split <;> exact ⟨rfl, rfl⟩
  have globals₄ : ((s.settled t p).trans p).globalConflictsWithSolutions =
      (s₃.trans p).globalConflictsWithSolutions := by
    rw [stages]
    refine foldl_keeps (fun s : Config N S => (s.trans p).globalConflictsWithSolutions) (fun s c => ?_) _
    rw [commitDeletedStructural_trans]
    exact (taken _ c).1
  have resolved₄ : ((s.settled t p).trans p).resolvedConflicts = (s₃.trans p).resolvedConflicts := by
    rw [stages]
    refine foldl_keeps (fun s : Config N S => (s.trans p).resolvedConflicts) (fun s c => ?_) _
    rw [commitDeletedStructural_trans]
    exact (taken _ c).2
  have owner (d : Nat) : (s₁.conf d).transaction = none ↔ (s.conf d).transaction = none := by
    rw [foldl_commitResolved_owner]
    split
    · rename_i own
      simp [own.2]
    · exact Iff.rfl
  obtain ⟨fewer, gone⟩ := foldl_commitDeleted_globals (s := s₁) (p := p) (s.trans t).conflict
    ((s.trans t).deletedConflicts false) (globals₁ ▸ globalsNodup)
  obtain ⟨nodup, members⟩ := foldl_commitDeleted_resolved (s := s₁) (p := p) (s.trans t).conflict
    ((s.trans t).deletedConflicts false) (resolved₁ ▸ resolvedNodup)
  rw [globals₄, resolved₄]
  refine ⟨globals₁ ▸ fewer, fun c mem none => gone c mem ((owner c).mpr none), nodup, fun d => ?_⟩
  rw [members, resolved₁, mem_append, or_assoc]

theorem commitTopResolved_memory : (commitTopResolved s c).live d =
    (s.live d && !(decide (d = c) && decide ((s.conf c).transaction ≠ none))) ∧
    (commitTopResolved s c).fault = (s.fault || !s.live c) := by
  by_cases global : (s.conf c).transaction = none
  · have step : commitTopResolved s c = s.touch c := if_pos global
    rw [step]
    refine ⟨?_, rfl⟩
    simp [global, touch]
  · have step : commitTopResolved s c = (s.touch c).destroy c := if_neg global
    rw [step]
    refine ⟨?_, touch_destroy_fault⟩
    rw [destroy_live]
    simp [global, touch]

section Values
variable [DecidableEq N]

/-- The toplevel's commit destroys what was made and solved under way, and the global conflicts that are gone. -/
theorem commitTop_memory (new : ∀ k, ∀ c ∈ (s.trans t).newConflicts k, s.live c = true)
    (resolved : ∀ c ∈ (s.trans t).resolvedConflicts, s.live c = true)
    (resolvedNodup : (s.trans t).resolvedConflicts.Nodup)
    (deleted : ∀ k, ∀ c ∈ (s.trans t).deletedConflicts k, s.live c = true ∧ (s.conf c).transaction = none ∧
      c ∉ (s.trans t).deletedConflicts (!k))
    (deletedNodup : ∀ k, ((s.trans t).deletedConflicts k).Nodup)
    (globals : ∀ c ∈ (s.trans t).globalConflictsWithSolutions, s.live c = true ∧ (s.conf c).transaction = none ∧
      ∀ k, c ∉ (s.trans t).deletedConflicts k) :
    (∀ d, (s.commitTop t).live d = (s.live d && !(decide (d ∈ (s.trans t).resolvedConflicts) &&
        decide (((s.commitTop t).conf d).transaction ≠ none) ||
      decide (d ∈ (s.trans t).deletedConflicts false) || decide (d ∈ (s.trans t).deletedConflicts true)))) ∧
    (s.commitTop t).fault = s.fault := by
  let s₀ : Config N S := { s with value := fun v => ((s.trans t).changes.lookup v).getD (s.value v) }
  let s₁ := ((s.trans t).newConflicts false).foldl (commitTopNew false) s₀
  let s₂ := ((s.trans t).newConflicts true).foldl (commitTopNew true) s₁
  let s₃ := (s.trans t).resolvedConflicts.foldl commitTopResolved s₂
  let s₄ := ((s.trans t).deletedConflicts false).foldl (commitTopDeleted false) s₃
  let s₅ := ((s.trans t).deletedConflicts true).foldl (commitTopDeleted true) s₄
  let s₆ := (s.trans t).globalConflictsWithSolutions.foldl clearSolution s₅
  obtain ⟨live₁, safe₁⟩ := foldl_looks (s := s₀) (f := commitTopNew false) id (fun _ _ => rfl) (fun _ _ => rfl)
    ((s.trans t).newConflicts false)
  obtain ⟨live₂, safe₂⟩ := foldl_looks (s := s₁) (f := commitTopNew true) id (fun _ _ => rfl) (fun _ _ => rfl)
    ((s.trans t).newConflicts true)
  obtain ⟨live₃, safe₃⟩ := foldl_destroys (s := s₂) (h := commitTopResolved)
    (fun s c => decide ((s.conf c).transaction ≠ none)) (fun s c d _ => by rw [commitTopResolved_conf.1])
    (fun _ _ _ => commitTopResolved_memory.1) (fun s c => (commitTopResolved_memory (d := c)).2) resolvedNodup
  obtain ⟨live₄, safe₄⟩ := foldl_destroys (s := s₃) (h := commitTopDeleted false) (fun _ _ => true)
    (fun _ _ _ _ => rfl) (fun _ _ _ => destroy_live) (fun _ _ => rfl) (deletedNodup false)
  obtain ⟨live₅, safe₅⟩ := foldl_destroys (s := s₄) (h := commitTopDeleted true) (fun _ _ => true)
    (fun _ _ _ _ => rfl) (fun _ _ _ => destroy_live) (fun _ _ => rfl) (deletedNodup true)
  obtain ⟨live₆, safe₆⟩ := foldl_looks (s := s₅) (f := clearSolution) id (fun _ _ => rfl) (fun _ _ => rfl)
    (s.trans t).globalConflictsWithSolutions
  have owner (d : Nat) : (s₂.conf d).transaction = ((s.commitTop t).conf d).transaction := by
    have resolvedSame : s₃.conf = s₂.conf := foldl_keeps conf (fun _ _ => commitTopResolved_conf.1) _
    have deletedSame : s₅.conf = s₃.conf := (foldl_keeps conf (by intros; rfl) _).trans
      (foldl_keeps conf (by intros; rfl) _)
    have cleared : (s₆.conf d).transaction = (s₅.conf d).transaction :=
      foldl_keeps (fun s : Config N S => (s.conf d).transaction) (fun s c => sameFiles_clearSolution.owner d) _
    rw [← resolvedSame, ← deletedSame, ← cleared]
    rfl
  have same₂ (d : Nat) : s₂.live d = s.live d := (congrFun live₂ d).trans (congrFun live₁ d)
  have left₃ (d : Nat) : s₃.live d = (s.live d && !(decide (d ∈ (s.trans t).resolvedConflicts) &&
      decide (((s.commitTop t).conf d).transaction ≠ none))) := by
    rw [live₃, same₂, ← owner]
  have left₄ (d : Nat) : s₄.live d = (s.live d && !(decide (d ∈ (s.trans t).resolvedConflicts) &&
      decide (((s.commitTop t).conf d).transaction ≠ none) || decide (d ∈ (s.trans t).deletedConflicts false))) := by
    rw [live₄, left₃, Bool.and_true, Bool.and_assoc, ← Bool.not_or]
  have left₅ (d : Nat) : s₅.live d = (s.live d && !(decide (d ∈ (s.trans t).resolvedConflicts) &&
      decide (((s.commitTop t).conf d).transaction ≠ none) || decide (d ∈ (s.trans t).deletedConflicts false) ||
      decide (d ∈ (s.trans t).deletedConflicts true))) := by
    rw [live₅, left₄, Bool.and_true, Bool.and_assoc, ← Bool.not_or]
  have global (d : Nat) (none : (s.conf d).transaction = none) : ((s.commitTop t).conf d).transaction = Option.none := by
    rw [commitTop_owner]
    split
    · rfl
    · exact none
  refine ⟨fun d => (congrFun live₆ d).trans (left₅ d), ?_⟩
  refine (safe₆ ?_).trans ((safe₅ ?_).trans ((safe₄ ?_).trans ((safe₃ ?_).trans ((safe₂ ?_).trans (safe₁ (new false))))))
  · intro c mem
    obtain ⟨live, none, apart⟩ := globals c mem
    rw [id, left₅, live]
    simp [apart, global c none]
  · intro c mem
    obtain ⟨live, none, apart⟩ := deleted true c mem
    rw [left₄, live]
    simpa [global c none] using apart
  · intro c mem
    obtain ⟨live, none, -⟩ := deleted false c mem
    rw [left₃, live]
    simp [global c none]
  · intro c mem
    rw [same₂]
    exact resolved c mem
  · intro c mem
    exact (congrFun live₁ c).trans (new true c mem)

theorem commitChange_memory (change : Sigma fun _ : N => CdlValue S) : (commitChange p s change).live = s.live ∧
    ((commitChange p s change).trans p).newConflicts = (s.trans p).newConflicts ∧
    ((commitChange p s change).trans p).resolvedConflicts = (s.trans p).resolvedConflicts ∧
    ((commitChange p s change).trans p).globalConflictsWithSolutions.Sublist
      (s.trans p).globalConflictsWithSolutions ∧
    ((∀ c ∈ (s.trans p).newConflicts false, s.live c = true) →
      (∀ c ∈ (s.trans p).globalConflictsWithSolutions, s.live c = true) →
      (commitChange p s change).fault = s.fault) := by
  let s₁ := s.modify p (·.insertChange change)
  obtain ⟨live, safe, globals⟩ := updateSolutions_memory (s := s₁) (t := p) (v := change.1)
  have files : SameFiles s₁ (s₁.updateSolutions p change.1) := sameFiles_updateSolutions
  have inserted : s₁.trans p = (s.trans p).insertChange change := modify_self
  refine ⟨live, (files.new p).trans ?_, (files.resolved p).trans ?_, ?_, ?_⟩
  · rw [inserted]
    rfl
  · rw [inserted]
    rfl
  · have fewer := globals p
    rwa [inserted] at fewer
  · intro new global
    rw [inserted] at safe
    exact safe new global

theorem foldl_commitChange_memory (l : List (Sigma fun _ : N => CdlValue S)) :
    (l.foldl (commitChange p) s).live = s.live ∧
    ((l.foldl (commitChange p) s).trans p).resolvedConflicts = (s.trans p).resolvedConflicts ∧
    ((l.foldl (commitChange p) s).trans p).globalConflictsWithSolutions.Sublist
      (s.trans p).globalConflictsWithSolutions ∧
    ((∀ c ∈ (s.trans p).newConflicts false, s.live c = true) →
      (∀ c ∈ (s.trans p).globalConflictsWithSolutions, s.live c = true) →
      (l.foldl (commitChange p) s).fault = s.fault) := by
  induction l generalizing s with
  | nil => exact ⟨rfl, rfl, .refl _, fun _ _ => rfl⟩
  | cons change l ih =>
    obtain ⟨live, new, resolved, globals, safe⟩ := commitChange_memory (s := s) (p := p) change
    obtain ⟨live', resolved', globals', safe'⟩ := ih (s := commitChange p s change)
    refine ⟨live'.trans live, resolved'.trans resolved, globals'.trans globals, fun made known => ?_⟩
    rw [live, new] at safe'
    exact (safe' made fun c mem => known c (globals.subset mem)).trans (safe made known)

/-- All loops of a commit: what the parent loses is destroyed, and nothing that was destroyed is looked at. -/
theorem Ready.transfer (ready : s.Ready t p) (globalsNodup : (s.trans p).globalConflictsWithSolutions.Nodup)
    (resolvedNodup : ((s.trans p).resolvedConflicts ++ (s.trans t).resolvedConflicts).Nodup) :
    (∀ d, (s.transfer t p).live d = (s.live d && !(decide (s.Destroys t p false d) || decide (s.Destroys t p true d)))) ∧
    (s.transfer t p).fault = s.fault ∧
    ((s.transfer t p).trans p).globalConflictsWithSolutions.Sublist (s.trans p).globalConflictsWithSolutions ∧
    (∀ c ∈ (s.trans t).deletedConflicts false, (s.conf c).transaction = none →
      c ∉ ((s.transfer t p).trans p).globalConflictsWithSolutions) ∧
    ((s.transfer t p).trans p).resolvedConflicts.Nodup ∧
    ∀ d, d ∈ ((s.transfer t p).trans p).resolvedConflicts ↔ d ∈ (s.trans p).resolvedConflicts ∨
      d ∈ (s.trans t).resolvedConflicts ∨ d ∈ (s.trans t).deletedConflicts false ∧ (s.trans t).conflict = some d := by
  let s₄ := s.settled t p
  let s₅ := (s.trans t).changes.entries.foldl (commitChange p) s₄
  let s₆ := ((s.trans t).newConflicts false).foldl (commitNew false p) s₅
  let s₇ := ((s.trans t).newConflicts true).foldl (commitNew true p) s₆
  obtain ⟨live₄, fault₄, new₄⟩ := ready.settled
  obtain ⟨globals₄, gone, nodup, members⟩ := settled_lists ready.globals globalsNodup resolvedNodup
  obtain ⟨live₅, resolved₅, globals₅, safe₅⟩ := foldl_commitChange_memory (s := s₄) (p := p)
    (s.trans t).changes.entries
  obtain ⟨live₆, safe₆⟩ := foldl_looks (s := s₅) (f := commitNew false p) id (fun _ _ => rfl) (fun _ _ => rfl)
    ((s.trans t).newConflicts false)
  obtain ⟨live₇, safe₇⟩ := foldl_looks (s := s₆) (f := commitNew true p) id (fun _ _ => rfl) (fun _ _ => rfl)
    ((s.trans t).newConflicts true)
  have lists (k : Bool) (l : List Nat) (s : Config N S) :
      ((l.foldl (commitNew k p) s).trans p).globalConflictsWithSolutions = (s.trans p).globalConflictsWithSolutions ∧
      ((l.foldl (commitNew k p) s).trans p).resolvedConflicts = (s.trans p).resolvedConflicts := by
    constructor
    · refine foldl_keeps (fun s : Config N S => (s.trans p).globalConflictsWithSolutions) (fun s c => ?_) _
      change (((s.touch c).modify p fun r => r.pushNew k c).trans p).globalConflictsWithSolutions = _
      rw [modify_self]
      rfl
    · refine foldl_keeps (fun s : Config N S => (s.trans p).resolvedConflicts) (fun s c => ?_) _
      change (((s.touch c).modify p fun r => r.pushNew k c).trans p).resolvedConflicts = _
      rw [modify_self]
      rfl
  have final : (s.transfer t p).trans p = (s.trans t).mergeActive (s₇.trans p) := modify_self
  have globals : ((s.transfer t p).trans p).globalConflictsWithSolutions =
      (s₅.trans p).globalConflictsWithSolutions := by
    rw [final]
    exact ((lists true _ s₆).1).trans (lists false _ s₅).1
  have resolved : ((s.transfer t p).trans p).resolvedConflicts = (s₄.trans p).resolvedConflicts := by
    rw [final]
    exact ((lists true _ s₆).2).trans ((lists false _ s₅).2.trans resolved₅)
  have kept (d : Nat) (live : s.live d = true) (some : ∀ k, ¬ s.Destroys t p k d) : s₄.live d = true := by
    rw [live₄, live]
    simp [some]
  have made (k : Bool) (c : Nat) (mem : c ∈ (s.trans t).newConflicts k) : s₄.live c = true :=
    kept c (ready.newSub k c mem).1 fun j destroyed => (ready.newSub k c mem).2 j destroyed.1
  have same₅ : s₅.live = s₄.live := live₅
  have same₆ : s₆.live = s₄.live := live₆.trans live₅
  refine ⟨fun d => (congrFun (live₇.trans same₆) d).trans (live₄ d), ?_, globals ▸ globals₅.trans globals₄, ?_,
    resolved ▸ nodup, resolved ▸ members⟩
  · refine (safe₇ ?_).trans ((safe₆ ?_).trans ((safe₅ ?_ ?_).trans fault₄))
    · rw [same₆]
      exact made true
    · rw [same₅]
      exact made false
    · intro c mem
      rw [new₄] at mem
      have old := (diff_sublist _ _).subset mem
      obtain ⟨live, apart⟩ := ready.new false c old
      refine kept c live fun k destroyed => ?_
      cases k with
      | false => exact (Nodup.mem_sdiff_iff (ready.newNodup false)).mp mem |>.2 destroyed.1
      | true => exact apart destroyed.2.1
    · intro c mem
      obtain ⟨live, apart⟩ := ready.globalsUp c (globals₄.subset mem)
      exact kept c live fun k destroyed => apart k destroyed.2.1
  · intro c mem none still
    rw [globals] at still
    exact gone c mem none (globals₅.subset still)

end Values

end Ecos.Cdl.Config
