import Ecos.Posix.SignalSteps

namespace Ecos.Posix.Signal
open Function (update update_self update_eq_self update_idem)
open List Option State
variable {T : Type} [DecidableEq T] {n : Nat} {s : State T n} {t : T} {signo : Fin 32} {wanted : Bool}

/-- How many generations are pending. -/
def Ledger.outstanding (l : Ledger T n) : Nat :=
  ((Finset.range l.generations.length).filter fun k => l.fate k = .pending).card

/-- An act that may happen, and does not go wrong. -/
def State.Ok (s : State T n) (a : Act T) : Prop := s.Enabled a ∧ s.Gentle a

/-- A call of `cyg_deliver_signals` returns, when its thread runs alone: there is a bound on the turns of
the loop, the mask is restored and nothing that is not masked is pending. -/
def State.Returns (s : State T n) (t : T) : Prop := ∃ es : List (Act T),
  (∀ e ∈ es, e = .test t ∨ e = .call t ∨ e = .ret t) ∧ es.length ≤ 3 * s.ledger.outstanding + 1 ∧
  Machine.Admits State.Enabled State.act s (.deliver t :: es) ∧
  (es.foldl State.act (s.deliver t)).stack = s.stack ∧ (es.foldl State.act (s.deliver t)).sigmask = s.sigmask ∧
  (es.foldl State.act (s.deliver t)).owner = s.owner ∧ (es.foldl State.act (s.deliver t)).todo t = 0

/-- `s'` is `s` with `signo` taken for `t`, which is again before the test of the loop. -/
structure Turned (s s' : State T n) (t : T) (signo : Fin 32) : Prop where
  stack : s'.stack = s.stack
  sigmask : s'.sigmask = s.sigmask
  owner : s'.owner = some t
  halted : s'.halted = s.halted
  sa : s'.sa = s.sa
  bits : s'.bits = (s.take t signo true).bits
  fate : s'.ledger.fate = (s.take t signo true).ledger.fate
  generations : s'.ledger.generations = s.ledger.generations

theorem turn (halted : s.halted = none) (owner : s.owner = some t) {locked : Bool} {entered : Sigset} {rest : List Delivery}
    (list : s.stack t = ⟨locked, entered, .test⟩ :: rest) (picked : lsbitIndex (s.todo t) = some signo)
    (isFn : (s.sa signo).saHandler = .fn) : Machine.Admits State.Ok State.act s [.test t, .call t, .ret t] ∧
      Turned s (((s.test t).call t).ret t) t signo := by
  let f : Frame := ⟨s.sigmask t, signo, (s.fetch signo true).2.1, s.ledger.receipts.length⟩
  obtain ⟨-, -, ledger, stack, -, halted', sa⟩ := take_fields s t signo true
  have tested : s.test t = { s.take t signo true with
      sigmask := update s.sigmask t (s.sigmask t ||| (s.sa signo).saMask ||| sigbit signo)
      owner := none }.setStack t (⟨locked, entered, .call f⟩ :: rest) := by
    unfold test
    rw [list]
    rw [picked]
    simp [isFn, f]
  have top : (s.test t).stack t = ⟨locked, entered, .call f⟩ :: rest := by simp [tested, setStack]
  have again : ((s.test t).sa f.signo).saHandler = .fn := by
    rw [tested]
    simpa [setStack, sa] using isFn
  have called : (s.test t).call t = { s.test t with ledger := (s.test t).ledger.call ⟨t, f.lsi, f.receipt⟩ }.setStack t
      (⟨locked, entered, .handler f⟩ :: rest) := by
    unfold call
    rw [top]
    simp [again]
  have top' : ((s.test t).call t).stack t = ⟨locked, entered, .handler f⟩ :: rest := by simp [called, setStack]
  have returned : ((s.test t).call t).ret t = { (s.test t).call t with
      owner := some t
      sigmask := update ((s.test t).call t).sigmask t f.oldmask }.setStack t (⟨locked, entered, .test⟩ :: rest) := by
    unfold ret
    rw [top']
  have running : (s.test t).halted = none := by rw [tested, ← halted, ← halted']; rfl
  have running' : ((s.test t).call t).halted = none := by rw [called, ← running]; rfl
  have free : ((s.test t).call t).owner = none := by rw [called, tested]; rfl
  constructor
  · refine ⟨⟨⟨halted, owner, by simp [phase, list]⟩, fun u isU => ?_⟩, ⟨⟨running, f, ?_⟩, fun f' isF => .inl ?_⟩,
      ⟨⟨running', free, f, ?_⟩, trivial⟩, trivial⟩
    · rw [← some.inj (picked.symm.trans isU), isFn]
      intro bad
      cases bad
    · simp [act, phase, top]
    · obtain rfl : f = f' := by simpa [act, phase, top] using isF
      exact again
    · simp [act, phase, top']
  · rw [returned, called, tested]
    refine ⟨?_, ?_, rfl, halted', sa, rfl, rfl, ?_⟩
    · simp only [setStack, stack, update_idem]
      rw [← list, update_eq_self]
    · simp [setStack, f]
    · simp only [setStack, Ledger.call, ledger]
      rfl

theorem Turned.outstanding {s' : State T n} (turned : Turned s s' t signo) (inv : Inv s)
    (on : sigismember (s.pending t) signo = true) : s'.ledger.outstanding < s.ledger.outstanding := by
  obtain ⟨free, queue, books⟩ := inv.books
  obtain ⟨-, took⟩ := books.taking on fun _ => rfl
  obtain ⟨k, taken⟩ := took.some
  have wasOpen : ∃ g, s.ledger.Open k g := by
    rcases took.each k with same | ⟨-, g, isOpen, -⟩
    · obtain ⟨_, _, -, isReceipt, -⟩ := inv.tickets.born k _ (same ▸ taken)
      simp at isReceipt
    · exact ⟨g, isOpen⟩
  obtain ⟨g, isOpen⟩ := wasOpen
  refine Finset.card_lt_card (Finset.ssubset_iff_of_subset ?_ |>.mpr ⟨k, ?_, ?_⟩)
  · intro j mem
    simp only [Finset.mem_filter, Finset.mem_range, turned.generations, turned.fate] at mem ⊢
    refine ⟨mem.1, ?_⟩
    rcases took.each j with same | ⟨new, -⟩
    · rw [← same, mem.2]
    · rw [new] at mem
      cases mem.2
  · simpa using ⟨isOpen.lt, isOpen.2⟩
  · simp [turned.fate, taken]

theorem Turned.pending {s' : State T n} (turned : Turned s s' t signo) {u : Fin 32}
    (on : sigismember (s'.pending t) u = true) : sigismember (s.pending t) u = true := by
  obtain ⟨v, fits, on⟩ := sigismember_pending.mp on
  refine sigismember_pending.mpr ⟨v, fits, ?_⟩
  rw [turned.bits, (take_fields s t signo true).1] at on
  split at on
  · exact clearBits_sub on
  · exact on

theorem Inv.loop (inv : Inv s) (halted : s.halted = none) (owner : s.owner = some t) {locked : Bool} {entered : Sigset}
    {rest : List Delivery} (list : s.stack t = ⟨locked, entered, .test⟩ :: rest)
    (handled : ∀ u, sigismember (s.todo t) u = true → (s.sa u).saHandler = .fn) {m : Nat} (few : s.ledger.outstanding ≤ m) :
    ∃ es : List (Act T), (∀ e ∈ es, e = .test t ∨ e = .call t ∨ e = .ret t) ∧ es.length ≤ 3 * m + 1 ∧
      Machine.Admits State.Ok State.act s es ∧ (es.foldl State.act s).stack = update s.stack t rest ∧
      (es.foldl State.act s).sigmask = s.sigmask ∧ (es.foldl State.act s).owner = (if locked then some t else none) ∧
      (es.foldl State.act s).todo t = 0 := by
  induction m using Nat.strong_induction_on generalizing s with
  | _ m ih =>
    cases picked : lsbitIndex (s.todo t) with
    | none =>
      have tested : s.test t = { s with
          owner := if locked then some t else none
          ledger := s.ledger.returned ⟨t, entered, s.sigmask t, s.todo t⟩ }.setStack t rest := by
        unfold State.test
        rw [list]
        rw [picked]
      refine ⟨[.test t], by simp, by simp, ⟨⟨⟨halted, owner, by simp [phase, list]⟩, fun u isU => ?_⟩, trivial⟩, ?_⟩
      · rw [picked] at isU
        cases isU
      · simp only [foldl_cons, foldl_nil, State.act, tested]
        exact ⟨rfl, rfl, rfl, lsbitIndex_none.mp picked⟩
    | some signo =>
      have on := lsbitIndex_some picked
      have pending : sigismember (s.pending t) signo = true := by
        rw [todo, sigismember_and, Bool.and_eq_true] at on
        exact on.1
      obtain ⟨admits, turned⟩ := turn halted owner list picked (handled signo on)
      have fewer := turned.outstanding inv pending
      have after : Inv (((s.test t).call t).ret t) :=
        ((inv.act admits.1.1 admits.1.2).act admits.2.1.1 admits.2.1.2).act admits.2.2.1.1 admits.2.2.1.2
      have handled' : ∀ u, sigismember ((((s.test t).call t).ret t).todo t) u = true →
          ((((s.test t).call t).ret t).sa u).saHandler = .fn := by
        intro u isOn
        rw [turned.sa]
        refine handled u ?_
        simp only [todo, turned.sigmask, sigismember_and, Bool.and_eq_true] at isOn ⊢
        exact ⟨turned.pending isOn.1, isOn.2⟩
      obtain ⟨es, own, length, admits', stack, sigmask, owner', clean⟩ := ih (m - 1) (by omega) after
        (turned.halted.trans halted) turned.owner (by rw [turned.stack, list]) handled' (by omega)
      refine ⟨.test t :: .call t :: .ret t :: es, ?_, ?_, ⟨admits.1, admits.2.1, admits.2.2.1, admits'⟩, ?_, ?_, owner', clean⟩
      · simpa using own
      · simp only [length_cons]
        omega
      · exact stack.trans (by rw [turned.stack])
      · exact sigmask.trans turned.sigmask

theorem admits_enabled {es : List (Act T)} (admits : Machine.Admits State.Ok State.act s es) :
    Machine.Admits State.Enabled State.act s es := by
  induction es generalizing s with
  | nil => trivial
  | cons e es ih => exact ⟨admits.1.1, ih admits.2⟩

theorem Inv.returns (inv : Inv s) (halted : s.halted = none) (free : s.owner = none ∨ s.owner = some t)
    (handled : ∀ u, sigismember (s.todo t) u = true → (s.sa u).saHandler = .fn) : s.Returns t := by
  have ok : s.Ok (.deliver t) := ⟨⟨halted, .inr free⟩, trivial⟩
  by_cases nothing : s.todo t = 0
  · have entered : s.deliver t = { s with ledger := s.ledger.returned ⟨t, s.sigmask t, s.sigmask t, s.todo t⟩ } :=
      if_pos nothing
    refine ⟨[], by simp, by simp, ⟨ok.1, trivial⟩, ?_⟩
    rw [foldl_nil, entered]
    exact ⟨rfl, rfl, rfl, nothing⟩
  · have entered : s.deliver t = { s with owner := some t }.setStack t
        (⟨s.owner = some t, s.sigmask t, .test⟩ :: s.stack t) := if_neg nothing
    have list : (s.deliver t).stack t = ⟨s.owner = some t, s.sigmask t, .test⟩ :: s.stack t := by
      rw [entered]
      exact update_self ..
    obtain ⟨es, own, length, admits, stack, sigmask, owner, clean⟩ := (inv.deliver (t := t)).loop
      (by rw [entered]; exact halted) (by rw [entered]; rfl) list (by rw [entered]; exact handled)
      (m := s.ledger.outstanding) (by rw [entered]; exact le_rfl)
    refine ⟨es, own, length, ⟨ok.1, admits_enabled admits⟩, ?_, ?_, ?_, clean⟩
    · rw [stack, entered]
      simp [State.setStack]
    · rw [sigmask, entered]
      rfl
    · rw [owner]
      rcases free with none | mine
      · simp [none]
      · simp [mine]

theorem take_pending {u : Fin 32} (other : u ≠ signo) :
    sigismember ((s.take t signo wanted).pending t) u = sigismember (s.pending t) u := by
  obtain ⟨bits, -⟩ := take_fields s t signo wanted
  have same : ∀ v, sigismember ((s.take t signo wanted).bits v) u = sigismember (s.bits v) u := by
    intro v
    rw [bits]
    split
    · unfold clearBits
      split <;> simp [other]
    · rfl
  have process := same none
  have thread := same (some t)
  simp only [State.bits] at process thread
  simp [State.pending, process, thread]

theorem ignored_act {u : Fin 32} {e : Act T} (own : e = .test t ∨ e = .call t ∨ e = .ret t) (isIgn : (s.sa u).saHandler = .ign) :
    ((s.act e).sa u).saHandler = .ign ∧ sigismember ((s.act e).pending t) u = sigismember (s.pending t) u := by
  rcases own with rfl | rfl | rfl
  · simp only [act, test]
    split
    · split
      · exact ⟨isIgn, rfl⟩
      · next signo _ =>
        split
        · next notIgn =>
          have other : u ≠ signo := fun same => notIgn (same ▸ isIgn)
          obtain ⟨-, -, -, -, -, -, sa⟩ := take_fields s t signo true
          exact ⟨by simpa [setStack, sa] using isIgn, take_pending other⟩
        · exact ⟨isIgn, rfl⟩
    · exact ⟨isIgn, rfl⟩
  · simp only [act, call]
    split
    · split
      · exact ⟨isIgn, rfl⟩
      · split
        · exact ⟨isIgn, rfl⟩
        · split <;> exact ⟨isIgn, rfl⟩
    · exact ⟨isIgn, rfl⟩
  · simp only [act, ret]
    split <;> exact ⟨isIgn, rfl⟩

theorem not_returns_of_ignored {u : Fin 32} (on : sigismember (s.todo t) u = true) (isIgn : (s.sa u).saHandler = .ign) :
    ¬ s.Returns t := by
  rintro ⟨es, own, -, -, -, sigmask, -, clean⟩
  have stays : ∀ (es : List (Act T)) (s : State T n), (∀ e ∈ es, e = .test t ∨ e = .call t ∨ e = .ret t) →
      (s.sa u).saHandler = .ign → sigismember ((es.foldl act s).pending t) u = sigismember (s.pending t) u := by
    intro es
    induction es with
    | nil => exact fun _ _ _ => rfl
    | cons e es ih =>
      intro s own isIgn
      obtain ⟨still, same⟩ := ignored_act (own e (mem_cons_self ..)) isIgn
      exact (ih _ (fun e mem => own e (mem_cons_of_mem _ mem)) still).trans same
  have entered : ((s.deliver t).sa u).saHandler = .ign ∧ (s.deliver t).pending t = s.pending t := by
    unfold deliver
    split <;> exact ⟨isIgn, rfl⟩
  have final := stays es _ own entered.1
  rw [entered.2] at final
  have off := eq_zero_iff.mp clean u
  simp only [todo, sigismember_and, sigismember_not, sigmask, final] at off on
  rw [off] at on
  cases on

/-- What the signals of a run come to. -/
structure State.Delivered (s : State T n) : Prop where
  partitioned : ∃ free queue, Holds s.pool free queue ∧
    (∀ signo, (queue signo).Pairwise fun x y => s.ledger.tag x < s.ledger.tag y) ∧
    (∀ signo, ∀ x ∈ queue signo, ∃ g, s.ledger.Open (s.ledger.tag x) g ∧ g.queued = true ∧ g.info = s.pool.si x ∧
      g.info.siSigno = signo) ∧
    ∀ k g, s.ledger.Open k g → g.queued = true → ∃ x ∈ queue g.info.siSigno, s.ledger.tag x = k
  generated : s.ledger.reported = s.ledger.generations.length
  values : ∀ k g r, s.ledger.generations[k]? = some g → g.queued = true → s.ledger.fate k = .taken r →
    (∃ w, s.ledger.receipts[r]? = some w ∧ w.info = g.info) ∧
    ∀ k' g', s.ledger.generations[k']? = some g' → g'.queued = true → s.ledger.fate k' = .taken r → k' = k
  handed : ∀ r w, s.ledger.receipts[r]? = some w →
    (s.ledger.calls.map Call.receipt).count r + ((awaiting (s.stack w.thread)).map Frame.receipt).count r = 1
  calls : ∀ c ∈ s.ledger.calls, s.ledger.receipts[c.receipt]? = some ⟨c.thread, c.info⟩
  awaiting : ∀ t, ∀ f ∈ awaiting (s.stack t), s.ledger.receipts[f.receipt]? = some ⟨t, f.lsi⟩
  consumes : ∀ r < s.ledger.receipts.length, ∃ k, s.ledger.fate k = .taken r
  own : ∀ k g r w, s.ledger.generations[k]? = some g → s.ledger.fate k = .taken r → s.ledger.receipts[r]? = some w →
    g.info.siSigno = w.info.siSigno ∧ (g.target = none ∨ g.target = some w.thread)
  bounded : s.ledger.receipts.length ≤ s.ledger.generations.length
  returned : ∀ r ∈ s.ledger.returns, r.todo = 0 ∧ r.mask = r.entered
  unharmed : s.halted ≠ some .wild

theorem Inv.delivered (inv : Inv s) : s.Delivered := by
  obtain ⟨free, queue, books⟩ := inv.books
  have tickets := inv.tickets
  refine ⟨⟨free, queue, books.holds, books.ordered, books.filled, books.queued⟩, inv.reported, fun k g r isG queued taken => ?_,
    tickets.settled, tickets.called, tickets.awaited, tickets.used, fun k g r w isG taken isW => ?_, ?_, inv.returned,
    inv.unharmed⟩
  · obtain ⟨g', w, isG', isW, -, -, isInfo⟩ := tickets.born k r taken
    obtain rfl := some.inj (isG.symm.trans isG')
    exact ⟨⟨w, isW, isInfo queued⟩, fun k' g' isG' queued' taken' => tickets.single k' k g' g r isG' isG queued' queued taken' taken⟩
  · obtain ⟨g', w', isG', isW', signo, isTarget, -⟩ := tickets.born k r taken
    obtain rfl := some.inj (isG.symm.trans isG')
    obtain rfl := some.inj (isW.symm.trans isW')
    exact ⟨signo, isTarget⟩
  · choose! k taken using tickets.used
    have small : ∀ r < s.ledger.receipts.length, k r < s.ledger.generations.length := by
      intro r few
      obtain ⟨g, w, isG, -⟩ := tickets.born (k r) r (taken r few)
      exact (List.getElem?_eq_some_iff.mp isG).1
    have injective : Set.InjOn k (Finset.range s.ledger.receipts.length) := by
      intro r few r' few' same
      have := taken r (by simpa using few)
      rw [same, taken r' (by simpa using few')] at this
      exact (Fate.taken.inj this).symm
    simpa using Finset.card_le_card_of_injOn (t := Finset.range s.ledger.generations.length) k
      (fun r few => by simpa using small r (by simpa using few)) injective

/-- The thread may call `cyg_deliver_signals`, and no default action ends the process there. -/
structure State.Ready (s : State T n) (t : T) : Prop where
  halted : s.halted = none
  free : s.owner = none ∨ s.owner = some t
  caught : ∀ u, sigismember (s.todo t) u = true → (s.sa u).saHandler ≠ .dfl

/-- In every run of gentle steps the signals are delivered as they were generated, and a call of
`cyg_deliver_signals` returns exactly if no signal that is ignored is pending unmasked for its thread. -/
theorem signals_delivered (reach : (machine T n State.Gentle).Reach s) : s.Delivered ∧
    ∀ t, s.Ready t → (s.Returns t ↔ ∀ u, sigismember (s.todo t) u = true → (s.sa u).saHandler ≠ .ign) := by
  have inv := reach_inv reach
  refine ⟨inv.delivered, fun t ready => ⟨fun returns u on isIgn => not_returns_of_ignored on isIgn returns, fun heeded => ?_⟩⟩
  refine inv.returns ready.halted ready.free fun u on => ?_
  have caught := ready.caught u on
  have notIgn := heeded u on
  cases handler : (s.sa u).saHandler with
  | dfl => exact absurd handler caught
  | ign => exact absurd handler notIgn
  | fn => rfl

/-- A value is queued, for a handler that is installed. -/
def queuedSeven : State Unit 32 := ((State.initial Unit 32).act (.sigaction () 16 ⟨.fn, true, 0⟩)).act (.sigqueue () 16 7)

theorem signals_delivered_queued : queuedSeven.Returns () := by
  have reach : (machine Unit 32 State.Gentle).Reach queuedSeven := by
    refine .next (.next (.start rfl) ⟨.sigaction () 16 ⟨.fn, true, 0⟩, ⟨⟨rfl, .inl rfl, rfl⟩, trivial⟩, rfl⟩)
      ⟨.sigqueue () 16 7, ⟨⟨rfl, .inl rfl, rfl⟩, fun signo valid => ?_⟩, rfl⟩
    obtain rfl : 16 = signo := Option.some.inj valid
    exact ⟨fun _ => by decide +kernel, fun _ _ => nofun, fun used => absurd (by decide +kernel) used⟩
  exact ((signals_delivered reach).2 () ⟨by decide +kernel, by decide +kernel, by decide +kernel⟩).mpr (by decide +kernel)

/-- A signal that is sent while it is ignored. -/
def ignoredSignal : State Unit 32 := ((State.initial Unit 32).act (.sigaction () 16 ⟨.ign, false, 0⟩)).act (.kill () 0 16)

/-- After it, `cyg_deliver_signals` does not return. -/
theorem ignored_hangs : ¬ ∀ s : State Unit 32, (machine Unit 32 fun _ _ => True).Reach s →
    s.Delivered ∧ ∀ t, s.Ready t → s.Returns t := by
  intro always
  have reach : (machine Unit 32 fun _ _ => True).Reach ignoredSignal :=
    .next (.next (.start rfl) ⟨.sigaction () 16 ⟨.ign, false, 0⟩, ⟨⟨rfl, .inl rfl, rfl⟩, trivial⟩, rfl⟩)
      ⟨.kill () 0 16, ⟨⟨rfl, .inl rfl, rfl⟩, trivial⟩, rfl⟩
  have returns := (always _ reach).2 () ⟨by decide +kernel, by decide +kernel, by decide +kernel⟩
  exact not_returns_of_ignored (u := 16) (by decide +kernel) (by decide +kernel) returns

end Ecos.Posix.Signal
