import Ecos.Posix.SignalTickets

namespace Ecos.Posix.Signal
open Function (update update_of_ne update_self update_eq_self)
open List (filterMap_cons not_mem_nil prefix_refl)
open Option State
variable {T : Type} [DecidableEq T] {n : Nat} {s : State T n} {t : T} {signo : Fin 32} {wanted : Bool} {free : List (Fin n)}
  {queue : Fin 32 → List (Fin n)} {info : Siginfo} {target : Option T}

theorem Books.fetch (books : Books s.bits s.pool s.ledger free queue)
    (want : s.pool.pending signo ≠ none → wanted = true) : ∃ rest free', queue signo = (s.fetch signo wanted).1.toList ++ rest ∧
      ((s.fetch signo wanted).1 = none → rest = []) ∧
      Holds (s.fetch signo wanted).2.2 free' (update queue signo rest) ∧
      (s.fetch signo wanted).2.2.si = s.pool.si ∧ (s.fetch signo wanted).2.1.siSigno = signo ∧
      ∀ x, (s.fetch signo wanted).1 = some x → (s.fetch signo wanted).2.1 = s.pool.si x := by
  have holds := books.holds
  cases list : queue signo with
  | nil =>
    have empty : s.pool.pending signo = none := holds.pending_none.mpr list
    have fetched : s.fetch signo wanted = (none, ⟨signo, siUser, 0⟩, s.pool) := by simp [State.fetch, empty]
    rw [fetched]
    exact ⟨[], free, rfl, fun _ => rfl, by rwa [← list, update_eq_self], rfl, rfl, nofun⟩
  | cons x rest =>
    have some : s.pool.pending signo ≠ none := fun empty => by simp [holds.pending_none.mp empty] at list
    obtain ⟨head, after, si⟩ := holds.dequeue list
    have pair : s.pool.dequeue signo = (Option.some x, (s.pool.dequeue signo).2) := by rw [← head]
    have fetched : s.fetch signo wanted = (Option.some x, s.pool.si x, (s.pool.dequeue signo).2) := by
      rw [State.fetch, if_pos ⟨want some, some⟩, pair]
    rw [fetched]
    obtain ⟨g, -, -, isInfo, same⟩ := books.filled signo x (by simp [list])
    exact ⟨rest, x :: free, rfl, nofun, after, si, isInfo ▸ same, fun y same => Option.some.inj same ▸ rfl⟩

theorem take_fields (s : State T n) (t : T) (signo : Fin 32) (wanted : Bool) :
    let c := decide ((s.fetch signo wanted).2.2.pending signo = none)
    (s.take t signo wanted).bits = (if c then clearBits s.bits t signo else s.bits) ∧
    (s.take t signo wanted).pool = (s.fetch signo wanted).2.2 ∧
    (s.take t signo wanted).ledger = s.ledger.take t (s.fetch signo wanted).2.1 signo (s.fetch signo wanted).1 c ∧
    (s.take t signo wanted).stack = s.stack ∧ (s.take t signo wanted).sigmask = s.sigmask ∧
    (s.take t signo wanted).halted = s.halted ∧ (s.take t signo wanted).sa = s.sa := by
  intro c
  by_cases empty : (s.fetch signo wanted).2.2.pending signo = none
  · have isC : c = true := by simpa [c] using empty
    have taken : s.take t signo wanted = _ := if_pos empty
    rw [taken, isC, if_pos rfl, bits_clear]
    exact ⟨rfl, rfl, rfl, rfl, rfl, rfl, rfl⟩
  · have isC : c = false := by simpa [c] using empty
    have taken : s.take t signo wanted = _ := if_neg empty
    rw [taken, isC]
    exact ⟨rfl, rfl, rfl, rfl, rfl, rfl, rfl⟩

theorem sigismember_pending : sigismember (s.pending t) signo = true ↔
    ∃ u, (u = none ∨ u = some t) ∧ sigismember (s.bits u) signo = true := by
  simp [pending, bits, or_and_right, exists_or]

/-- A taking keeps the books, and takes something that was pending for the process or for `t`. -/
theorem Books.taking (books : Books s.bits s.pool s.ledger free queue) (on : sigismember (s.pending t) signo = true)
    (want : s.pool.pending signo ≠ none → wanted = true) :
    (∃ free' queue', Books (s.take t signo wanted).bits (s.take t signo wanted).pool (s.take t signo wanted).ledger
      free' queue') ∧ Took s.ledger (s.take t signo wanted).ledger t (s.fetch signo wanted).2.1 := by
  obtain ⟨rest, free', list, empty, holds, si, signo', isInfo⟩ := books.fetch want
  obtain ⟨bits, pool, ledger, -⟩ := take_fields s t signo wanted
  obtain ⟨u, fits, on⟩ := sigismember_pending.mp on
  have cleared : (s.fetch signo wanted).2.2.pending signo = none ↔ rest = [] := by
    rw [holds.pending_none, update_self]
  rw [bits, pool, ledger]
  refine ⟨⟨free', _, books.take fits on list empty holds si (by rw [decide_eq_true_eq, cleared])⟩, ?_⟩
  generalize (s.fetch signo wanted).1 = x' at *
  generalize (s.fetch signo wanted).2.1 = info at *
  generalize isC : decide ((s.fetch signo wanted).2.2.pending signo = none) = c
  have fate : ∀ k, (s.ledger.take t info signo x' c).fate k = if s.ledger.fate k = .pending ∧
      (x'.map s.ledger.tag = some k ∨ c = true ∧ s.ledger.merged t signo k = true) then .taken s.ledger.receipts.length
      else s.ledger.fate k := fun _ => rfl
  have head : ∀ x, x' = some x → ∃ g, s.ledger.Open (s.ledger.tag x) g ∧ g.info.siSigno = info.siSigno ∧
      (g.target = none ∨ g.target = some t) ∧ (g.queued = true → info = g.info) := by
    rintro x rfl
    obtain ⟨g, isOpen, queued, same, isSigno⟩ := books.filled signo x (by simp [list])
    refine ⟨g, isOpen, by rw [isSigno, signo'], books.own_of_pending fits on isOpen queued isSigno, fun _ => ?_⟩
    rw [same, isInfo x rfl]
  refine ⟨rfl, rfl, rfl, ?_, fun k => ?_, fun k k' g g' isOpen isOpen' queued queued' => ?_⟩
  · cases x' with
    | some x =>
      obtain ⟨g, isOpen, -⟩ := head x rfl
      exact ⟨s.ledger.tag x, by rw [fate, if_pos ⟨isOpen.2, .inl rfl⟩]⟩
    | none =>
      obtain ⟨k, g, isOpen, isSigno, isTarget⟩ := (books.shown u signo).mp on
      have unqueued : g.queued = false := by
        by_contra queued
        obtain ⟨z, inside, -⟩ := books.queued k g isOpen (by simpa using queued)
        rw [isSigno, list, empty rfl] at inside
        simp at inside
      have merged := (merged_iff t signo isOpen).mpr ⟨isSigno, unqueued, isTarget ▸ fits⟩
      have full : c = true := by rw [← isC, decide_eq_true_eq, cleared, empty rfl]
      exact ⟨k, by rw [fate, if_pos ⟨isOpen.2, .inr ⟨full, merged⟩⟩]⟩
  · rw [fate]
    split
    · next taken =>
      obtain ⟨pending, tagged | ⟨-, merged⟩⟩ := taken
      · obtain ⟨x, rfl, rfl⟩ := map_eq_some_iff.mp tagged
        exact .inr ⟨rfl, head x rfl⟩
      · simp only [Ledger.merged] at merged
        split at merged
        · next g born =>
          obtain ⟨isSigno, unqueued, isTarget⟩ := (merged_iff t signo ⟨born, pending⟩).mp
            (by simpa [Ledger.merged, born] using merged)
          exact .inr ⟨rfl, g, ⟨born, pending⟩, by rw [isSigno, signo'], isTarget, fun queued => by simp [unqueued] at queued⟩
        · cases merged
    · exact .inl rfl
  · have only : ∀ {k g}, s.ledger.Open k g → g.queued = true →
        (s.ledger.take t info signo x' c).fate k = .taken s.ledger.receipts.length → x'.map s.ledger.tag = some k := by
      intro k g isOpen queued taken
      rw [fate] at taken
      split at taken
      · next isGone =>
        refine isGone.2.resolve_right ?_
        rintro ⟨-, merged⟩
        have unqueued := ((merged_iff t signo isOpen).mp merged).2.1
        rw [queued] at unqueued
        cases unqueued
      · rw [isOpen.2] at taken
        cases taken
    intro taken taken'
    exact some.inj ((only isOpen queued taken).symm.trans (only isOpen' queued' taken'))

/-- A call that has not returned will leave the mask as it found it. -/
def Restores : List Delivery → Sigset → Prop
  | [], _ => True
  | d :: rest, mask => (match d.phase with
    | .test => mask = d.entered
    | .call f | .handler f => f.oldmask = d.entered) ∧ Restores rest d.entered

structure Inv (s : State T n) : Prop where
  books : ∃ free queue, Books s.bits s.pool s.ledger free queue
  tickets : Tickets s.ledger s.stack
  masks : ∀ t, Restores (s.stack t) (s.sigmask t)
  returned : ∀ r ∈ s.ledger.returns, r.todo = 0 ∧ r.mask = r.entered
  reported : s.ledger.reported = s.ledger.generations.length
  unharmed : s.halted ≠ some .wild

theorem inv_initial : Inv (State.initial T n) :=
  ⟨(books_initial (T := T) (n := n)).imp fun _ books => ⟨_, books⟩, tickets_initial, fun _ => trivial, fun _ mem => absurd mem not_mem_nil, rfl, nofun⟩

/-- When no step goes wrong: a generation has room, the loop does not pick a signal that is ignored, no
action is changed to `SIG_IGN` between the taking of the signal and the call of its handler, and
`sigtimedwait` does not accept a plain signal that has values queued. -/
def State.Gentle (s : State T n) : Act T → Prop
  | .kill _ pid sig => ∀ signo, signalValid sig = some signo → pid = 0 → s.Room signo none
  | .sigqueue _ sig _ => ∀ signo, signalValid sig = some signo → s.Room signo none
  | .pthreadKill _ thread sig => ∀ signo t, signalValid sig = some signo → thread = some t → s.Room signo (some t)
  | .sigtimedwait t set => ∀ signo, lsbitIndex (set &&& s.pending t) = some signo → s.pool.pending signo ≠ none →
      (s.sa signo).siginfo = true
  | .test t => ∀ signo, lsbitIndex (s.todo t) = some signo → (s.sa signo).saHandler ≠ .ign
  | .call t => ∀ f, s.phase t = some (.call f) →
      (s.sa f.signo).saHandler = .fn ∨ (s.sa f.signo).saHandler = .dfl ∧ (s.sa f.signo).siginfo = false
  | .sigaction .. | .pthreadSigmask .. | .deliver _ | .ret _ => True

theorem cygSigqueue_fields (generated : (s.cygSigqueue info target).1 = true) : ∃ x',
    (s.cygSigqueue info target).2.ledger = s.ledger.generate ⟨info, target, (s.sa info.siSigno).siginfo⟩ x' ∧
    (s.cygSigqueue info target).2.stack = s.stack ∧ (s.cygSigqueue info target).2.sigmask = s.sigmask ∧
    (s.cygSigqueue info target).2.halted = s.halted := by
  unfold cygSigqueue at generated ⊢
  dsimp only at generated ⊢
  split at generated
  · next flag =>
    rw [if_pos flag]
    split at generated
    · cases generated
    · next x pool enqueued =>
      rw [flag]
      cases target <;> exact ⟨some x, rfl, rfl, rfl, rfl⟩
  · next flag =>
    rw [if_neg flag, Bool.eq_false_iff.mpr flag]
    cases target <;> exact ⟨none, rfl, rfl, rfl, rfl⟩

theorem Inv.generate (inv : Inv s) (room : s.Room info.siSigno target) :
    Inv (State.report (none, (s.cygSigqueue info target).2)) := by
  obtain ⟨free, queue, books⟩ := inv.books
  obtain ⟨generated, free', queue', after⟩ := books.generate room
  obtain ⟨x', ledger, stack, sigmask, halted⟩ := cygSigqueue_fields generated
  simp only [report, if_true]
  refine ⟨⟨free', queue', after.congr rfl rfl rfl⟩, ?_, ?_, ?_, ?_, halted ▸ inv.unharmed⟩
  · refine inv.tickets.mono ?_ ?_ ?_ ?_ fun t => by rw [stack]
    · simp [Ledger.report, ledger, Ledger.generate]
    · intro k r
      simp [Ledger.report, ledger, Ledger.generate]
    · simp [Ledger.report, ledger, Ledger.generate]
    · simp [Ledger.report, ledger, Ledger.generate]
  · simp only [stack, sigmask]
    exact inv.masks
  · simp only [Ledger.report, ledger, Ledger.generate]
    exact inv.returned
  · simp [Ledger.report, ledger, Ledger.generate, inv.reported]

theorem stack_of_phase {p : Phase} (at' : s.phase t = some p) :
    ∃ locked entered rest, s.stack t = ⟨locked, entered, p⟩ :: rest := by
  obtain ⟨d, isHead, rfl⟩ := map_eq_some_iff.mp at'
  obtain ⟨rest, list⟩ := List.head?_eq_some_iff.mp isHead
  exact ⟨d.locked, d.entered, rest, list⟩

theorem awaiting_update {d d' : Delivery} {rest : List Delivery} (list : s.stack t = d :: rest)
    (same : d'.phase.awaits = d.phase.awaits) (u : T) :
    awaiting (update s.stack t (d' :: rest) u) = awaiting (s.stack u) := by
  by_cases isT : u = t
  · subst isT
    simp only [update_self, list, awaiting, filterMap_cons, same]
  · rw [update_of_ne isT]

theorem masks_update (masks : ∀ t, Restores (s.stack t) (s.sigmask t)) {stack : List Delivery} {mask : Sigset}
    (here : Restores stack mask) (u : T) :
    Restores (update s.stack t stack u) (update s.sigmask t mask u) := by
  by_cases isT : u = t
  · subst isT
    simpa using here
  · simpa [update_of_ne isT] using masks u

section
variable (inv : Inv s)
include inv

theorem Inv.sigtimedwait {set : Sigset} (gentle : s.Gentle (.sigtimedwait t set)) : Inv (s.sigtimedwait t set) := by
  obtain ⟨free, queue, books⟩ := inv.books
  unfold State.sigtimedwait
  split
  · exact inv
  · next signo picked =>
    have on : sigismember (s.pending t) signo = true := by
      have := lsbitIndex_some picked
      rw [sigismember_and, Bool.and_eq_true] at this
      exact this.2
    obtain ⟨⟨free', queue', after⟩, took⟩ := books.taking on (gentle signo picked)
    obtain ⟨-, -, ledger, stack, sigmask, halted, -⟩ := take_fields s t signo (s.sa signo).siginfo
    -- the receipt is given and used in one step, as if for a handler called at once
    let f : Frame := ⟨0, signo, (s.fetch signo (s.sa signo).siginfo).2.1, s.ledger.receipts.length⟩
    have awaits : Tickets (s.take t signo (s.sa signo).siginfo).ledger
        (update s.stack t (⟨false, 0, .call f⟩ :: s.stack t)) :=
      inv.tickets.take took (f := f) rfl rfl (by rw [update_self]; rfl) fun u other => by
        rw [update_of_ne other]
    have calls : Tickets ((s.take t signo (s.sa signo).siginfo).ledger.call ⟨t, f.lsi, f.receipt⟩) s.stack :=
      awaits.call (by rw [update_self]; rfl) fun u other => by rw [update_of_ne other]
    refine ⟨⟨free', queue', after.congr rfl rfl rfl⟩, ?_, ?_, ?_, ?_, halted ▸ inv.unharmed⟩
    · rw [stack]
      exact calls
    · simp only [stack, sigmask]
      exact inv.masks
    · simp only [Ledger.call, ledger]
      exact inv.returned
    · simp only [Ledger.call, ledger]
      exact inv.reported

theorem Inv.deliver : Inv (s.deliver t) := by
  unfold State.deliver
  split
  · next nothing =>
    refine ⟨inv.books.imp fun _ => .imp fun _ books => books.congr rfl rfl rfl, ?_, inv.masks, fun r mem => ?_, inv.reported,
      inv.unharmed⟩
    · exact inv.tickets.mono (prefix_refl _) (fun _ _ => .rfl) rfl rfl fun _ => rfl
    · rcases List.mem_append.mp mem with mem | new
      · exact inv.returned r mem
      · obtain rfl := List.mem_singleton.mp new
        exact ⟨nothing, rfl⟩
  · refine ⟨inv.books.imp fun _ => .imp fun _ books => books, ?_, fun u => ?_, inv.returned, inv.reported, inv.unharmed⟩
    · refine inv.tickets.mono (prefix_refl _) (fun _ _ => .rfl) rfl rfl fun u => ?_
      by_cases isT : u = t
      · subst isT
        simp [setStack, awaiting, Phase.awaits]
      · simp [setStack, update_of_ne isT]
    · by_cases isT : u = t
      · subst isT
        simpa [setStack, Restores] using inv.masks u
      · simpa [setStack, update_of_ne isT] using inv.masks u

theorem Inv.test (at' : s.phase t = some .test) (gentle : s.Gentle (.test t)) : Inv (s.test t) := by
  obtain ⟨locked, entered, rest, list⟩ := stack_of_phase at'
  have masks : Restores (⟨locked, entered, .test⟩ :: rest) (s.sigmask t) := list ▸ inv.masks t
  unfold State.test
  rw [list]
  dsimp only
  split
  · next nothing =>
    have clean := lsbitIndex_none.mp nothing
    refine ⟨inv.books.imp fun _ => .imp fun _ books => books.congr rfl rfl rfl, ?_, fun u => ?_, fun r mem => ?_,
      inv.reported, inv.unharmed⟩
    · refine inv.tickets.mono (prefix_refl _) (fun _ _ => .rfl) rfl rfl fun u => ?_
      by_cases isT : u = t
      · subst isT
        simp [setStack, list, awaiting, Phase.awaits]
      · simp [setStack, update_of_ne isT]
    · have here : Restores rest (s.sigmask t) := masks.1 ▸ masks.2
      simpa [setStack] using masks_update (t := t) inv.masks here u
    · rcases List.mem_append.mp mem with mem | new
      · exact inv.returned r mem
      · obtain rfl := List.mem_singleton.mp new
        exact ⟨clean, masks.1⟩
  · next signo picked =>
    rw [if_pos (gentle signo picked)]
    obtain ⟨free, queue, books⟩ := inv.books
    have on : sigismember (s.pending t) signo = true := by
      have := lsbitIndex_some picked
      rw [todo, sigismember_and, Bool.and_eq_true] at this
      exact this.1
    obtain ⟨⟨free', queue', after⟩, took⟩ := books.taking on fun _ => rfl
    obtain ⟨-, -, ledger, stack, sigmask, halted, -⟩ := take_fields s t signo true
    refine ⟨⟨free', queue', after⟩, ?_, fun u => ?_, ?_, ?_, halted ▸ inv.unharmed⟩
    · simp only [setStack, stack]
      refine inv.tickets.take took (f := ⟨s.sigmask t, signo, (s.fetch signo true).2.1, s.ledger.receipts.length⟩) rfl rfl ?_
        fun u other => by rw [update_of_ne other]
      rw [update_self, list]
      rfl
    · simp only [setStack, stack]
      let f : Frame := ⟨s.sigmask t, signo, (s.fetch signo true).2.1, s.ledger.receipts.length⟩
      have here : Restores (⟨locked, entered, .call f⟩ :: rest) (s.sigmask t ||| (s.sa signo).saMask ||| sigbit signo) :=
        ⟨masks.1, masks.2⟩
      exact masks_update inv.masks here u
    · simp only [setStack, ledger]
      exact inv.returned
    · simp only [setStack, ledger]
      exact inv.reported

theorem Inv.call {f : Frame} (at' : s.phase t = some (.call f)) (gentle : s.Gentle (.call t)) : Inv (s.call t) := by
  obtain ⟨locked, entered, rest, list⟩ := stack_of_phase at'
  have masks : Restores (⟨locked, entered, .call f⟩ :: rest) (s.sigmask t) := list ▸ inv.masks t
  unfold State.call
  rw [list]
  rcases gentle f at' with isFn | ⟨isDfl, plain⟩
  · simp only [isFn, ne_eq, not_true_eq_false, and_false, if_false, reduceCtorEq]
    refine ⟨inv.books.imp fun _ => .imp fun _ books => books.congr rfl rfl rfl, ?_, fun u => ?_, inv.returned, inv.reported,
      inv.unharmed⟩
    · refine inv.tickets.call ?_ fun u other => by simp [setStack, update_of_ne other]
      simp [setStack, list, awaiting, Phase.awaits]
    · have := masks_update (t := t) inv.masks
        (show Restores (⟨locked, entered, .handler f⟩ :: rest) (s.sigmask t) from masks) u
      simpa only [setStack, update_eq_self] using this
  · simp only [isDfl, plain, Bool.false_eq_true, false_and, if_false, if_true]
    exact ⟨inv.books, inv.tickets, inv.masks, inv.returned, inv.reported, nofun⟩

theorem Inv.ret {f : Frame} (at' : s.phase t = some (.handler f)) : Inv (s.ret t) := by
  obtain ⟨locked, entered, rest, list⟩ := stack_of_phase at'
  have masks : Restores (⟨locked, entered, .handler f⟩ :: rest) (s.sigmask t) := list ▸ inv.masks t
  unfold State.ret
  rw [list]
  refine ⟨inv.books, ?_, fun u => ?_, inv.returned, inv.reported, inv.unharmed⟩
  · exact inv.tickets.mono (prefix_refl _) (fun _ _ => .rfl) rfl rfl (awaiting_update list rfl)
  · exact masks_update inv.masks (show Restores (⟨locked, entered, .test⟩ :: rest) f.oldmask from masks) u

theorem Inv.pthreadSigmask (runs : s.Runs t) {how : How} {set : Sigset} : Inv (s.pthreadSigmask t how set) := by
  refine ⟨inv.books, inv.tickets, fun u => ?_, inv.returned, inv.reported, inv.unharmed⟩
  have here : Restores (s.stack t) (how.apply (s.sigmask t) set) := by
    rcases runs with idle | ⟨f, at'⟩
    · have empty : s.stack t = [] := by simpa [phase] using idle
      rw [empty]
      trivial
    · obtain ⟨locked, entered, rest, list⟩ := stack_of_phase at'
      rw [list]
      exact (list ▸ inv.masks t : Restores (⟨locked, entered, .handler f⟩ :: rest) (s.sigmask t))
  simpa only [State.pthreadSigmask, update_eq_self] using masks_update (t := t) inv.masks here u

theorem Inv.sigaction {sig : Int} {act : Sigaction} : Inv (s.sigaction t sig act).2 := by
  unfold State.sigaction
  split
  · exact inv
  · next signo _ =>
    have same : Inv { s with sa := update s.sa signo act } :=
      ⟨inv.books, inv.tickets, inv.masks, inv.returned, inv.reported, inv.unharmed⟩
    dsimp only
    split
    · split
      · next on =>
        obtain ⟨free, queue, books⟩ := inv.books
        obtain ⟨u, fits, on⟩ := sigismember_pending.mp on
        obtain ⟨free', holds, si⟩ := books.holds.discard (books.holds.length_le signo)
        have after := books.discard fits on holds si
        refine ⟨⟨free', update queue signo [], ?_⟩, ?_, inv.masks, inv.returned, inv.reported, inv.unharmed⟩
        · rw [bits_clear]
          exact after
        · refine inv.tickets.mono (prefix_refl _) (fun k r => ?_) rfl rfl fun _ => rfl
          simp only [clear, Ledger.discard]
          split
          · next isGone => simp [isGone.1]
          · exact .rfl
      · exact same
    · exact same

theorem Inv.act {a : Act T} (enabled : s.Enabled a) (gentle : s.Gentle a) : Inv (s.act a) := by
  cases a with
  | kill _ pid sig =>
    simp only [State.act, State.kill]
    split
    · exact inv
    · next signo valid =>
      split
      · exact inv
      · next isZero => exact inv.generate (gentle signo valid (by simpa using isZero))
  | sigqueue _ sig value =>
    simp only [State.act, State.sigqueue]
    split
    · exact inv
    · next signo valid => exact inv.generate (gentle signo valid)
  | pthreadKill _ thread sig =>
    simp only [State.act, State.pthreadKill]
    split
    · exact inv
    · next signo valid =>
      cases thread with
      | none => exact inv
      | some t => exact inv.generate (gentle signo t valid rfl)
  | sigaction t sig act => exact inv.sigaction
  | pthreadSigmask t how set => exact inv.pthreadSigmask enabled.2
  | sigtimedwait t set => exact inv.sigtimedwait gentle
  | deliver t => exact inv.deliver
  | test t => exact inv.test enabled.2.2 gentle
  | call t =>
    obtain ⟨f, at'⟩ := enabled.2
    exact inv.call at' gentle
  | ret t =>
    obtain ⟨f, at'⟩ := enabled.2.2
    exact inv.ret at'

end

/-- The system of all the threads, in the runs whose steps satisfy `Ok`. -/
def machine (T : Type) [DecidableEq T] (n : Nat) (Ok : State T n → Act T → Prop) : Machine (State T n) :=
  .guided (fun s => s = .initial T n) (fun s a => s.Enabled a ∧ Ok s a) State.act

theorem reach_inv (reach : (machine T n State.Gentle).Reach s) : Inv s :=
  reach.kept (fun _ first => first ▸ inv_initial) fun _ _ inv ok => inv.act ok.1 ok.2

end Ecos.Posix.Signal
