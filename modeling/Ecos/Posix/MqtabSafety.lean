import Ecos.Posix.Mqtab

namespace Ecos.Posix.Mqtab
open Function (update update_of_ne update_self update_apply update_eq_self update_idem)
open List Option State Run
variable {c : Config}

/-- The entries in use own the live queues and have names of their own. -/
structure Owned (s : State c) : Prop where
  live : ∀ q, s.live q = true ↔ ∃ i, (s.mqtab i).mq = some q
  single : ∀ i j q, (s.mqtab i).mq = some q → (s.mqtab j).mq = some q → i = j
  fresh : ∀ i q, (s.mqtab i).mq = some q → q < s.nextQueue
  named : ∀ i, (s.mqtab i).mq = none ↔ (s.mqtab i).name = []
  short : ∀ i, (s.mqtab i).name.take c.pathMax = (s.mqtab i).name
  distinct : ∀ i j, (s.mqtab i).name = (s.mqtab j).name → (s.mqtab i).name ≠ [] → i = j

theorem Owned.touch {s s' : State c} (owned : Owned s) (mq : ∀ j, (s'.mqtab j).mq = (s.mqtab j).mq)
    (name : ∀ j, (s'.mqtab j).name = (s.mqtab j).name) (live : s'.live = s.live) (next : s'.nextQueue = s.nextQueue) :
    Owned s' where
  live q := by simpa only [mq, live] using owned.live q
  single i j q := by simpa only [mq] using owned.single i j q
  fresh i q := by simpa only [mq, next] using owned.fresh i q
  named i := by simpa only [mq, name] using owned.named i
  short i := by simpa only [name] using owned.short i
  distinct i j := by simpa only [name] using owned.distinct i j

theorem update_field {α : Type*} {tab : Fin c.openMax → Tabent} {i : Fin c.openMax} {e : Tabent} (f : Tabent → α)
    (same : f e = f (tab i)) (j : Fin c.openMax) : f (update tab i e j) = f (tab j) := by
  by_cases here : j = i
  · rw [here, update_self, same]
  · rw [update_of_ne here]

/-- The invariant of gentle runs. In the middle of a call the entry `busy` may be unlinked and not yet
marked, or marked and without users. -/
structure Inv (busy : Option (Fin c.openMax)) (r : Run c) : Prop where
  sound : r.state.broken = false
  owned : Owned r.state
  users : ∀ u i, u ∈ (r.state.mqtab i).users ↔ ∃ m, r.opened u = some (i, m)
  nodup : ∀ i, (r.state.mqtab i).users.Nodup
  handed : ∀ u, r.opened u ≠ none → u < r.state.nextUser
  held : ∀ u i m, r.opened u = some (i, m) → (r.state.mqtab i).mq = m ∧ m ≠ none
  descriptor : ∀ u i m, r.opened u = some (i, m) → ∃ user, r.state.user u = some user ∧ user.tabent = i ∧
    user.magic = true ∧ (user.notifieruser = true ↔ ∃ q, m = some q ∧ r.state.notified q = some u)
  silent : ∀ i q, (r.state.mqtab i).mq = some q → ((r.state.mqtab i).sigev = none ↔ r.state.notified q = none)
  registrant : ∀ i q u, (r.state.mqtab i).mq = some q → r.state.notified q = some u → u ∈ (r.state.mqtab i).users
  pending : ∀ i, busy ≠ some i → (r.state.mqtab i).unlinkme = true → (r.state.mqtab i).mq ≠ none → (r.state.mqtab i).users ≠ []
  marked : ∀ i q, busy ≠ some i → (r.state.mqtab i).mq = some q → (r.unlinked q = true ↔ (r.state.mqtab i).unlinkme = true)
  ahead : ∀ q, r.state.nextQueue ≤ q → r.unlinked q = false
  gone : ∀ q, q ∈ r.state.destroyed ↔ q < r.state.nextQueue ∧ r.state.live q = false
  once : r.state.destroyed.Nodup
  ended : ∀ q ∈ r.state.destroyed, r.unlinked q = true

theorem Inv.initial : Inv none (Run.initial c) := by
  refine ⟨rfl, ⟨?_, ?_, ?_, ?_, ?_, ?_⟩, ?_, ?_, ?_, ?_, ?_, ?_, ?_, ?_, ?_, ?_, ?_, ?_, ?_⟩ <;>
    simp [Run.initial, State.initial]

variable {r : Run c} {i : Fin c.openMax} {u q : Nat} {user : User c}

attribute [local grind =] update_apply

section
variable (inv : Inv none r)
include inv

/-- A new queue is made in an empty entry, under a name that no entry has. -/
theorem Inv.create {name : Name} (empty : (r.state.mqtab i).mq = none) (some' : name ≠ [])
    (short : name.take c.pathMax = name) (unused : ∀ j, (r.state.mqtab j).name ≠ name) (flags : BitVec 32)
    (maxmsg msgsize : Int) :
    Inv none { r with
      state := { r.state with
        mqtab := update r.state.mqtab i
          ⟨name, some r.state.nextQueue, maxmsg, msgsize, false, [r.state.nextUser], none⟩
        user := update r.state.user r.state.nextUser (some ⟨flags, i, false, true⟩)
        notified := update r.state.notified r.state.nextQueue none
        live := update r.state.live r.state.nextQueue true
        nextUser := r.state.nextUser + 1
        nextQueue := r.state.nextQueue + 1 }
      opened := update r.opened r.state.nextUser (some (i, some r.state.nextQueue)) } := by
  have unborn : ∀ j q, (r.state.mqtab j).mq = some q → q ≠ r.state.nextQueue := fun j q owns =>
    ne_of_lt (inv.owned.fresh j q owns)
  have vacant : ∀ u m, r.opened u ≠ some (i, m) := fun u m opened =>
    (inv.held u i m opened).2 ((inv.held u i m opened).1.symm.trans empty)
  refine { inv with owned := ⟨fun q => ?_, fun j k q => ?_, fun j q => ?_, fun j => ?_, fun j => ?_, fun j k => ?_⟩,
                    users := fun u j => ?_, nodup := fun j => ?_,
                    handed := fun u => ?_, held := fun u j m => ?_, descriptor := fun u j m => ?_, silent := fun j q => ?_,
                    registrant := fun j q u => ?_, pending := fun j => ?_, marked := fun j q => ?_, ahead := fun q => ?_,
                    gone := fun q => ?_ }
  · simp only [update_apply]
    have := inv.owned.live q
    grind
  · have := inv.owned.single j k q
    grind
  · have := inv.owned.fresh j q
    grind
  · have := inv.owned.named j
    grind
  · have := inv.owned.short j
    grind
  · have := inv.owned.distinct j k
    grind
  · have old := inv.users u j
    by_cases new : u = r.state.nextUser
    · subst new
      have unopened : r.opened r.state.nextUser = none := by
        by_contra opened
        exact absurd (inv.handed _ opened) (lt_irrefl _)
      by_cases here : j = i
      · simp [here]
      · simpa [here, Ne.symm here, unopened] using old
    · by_cases here : j = i
      · subst here
        simpa [new] using vacant u
      · simpa [here, new] using old
  · have := inv.nodup j
    grind
  · have := inv.handed u
    grind
  · have := inv.held u j m
    grind
  · intro opened
    by_cases new : u = r.state.nextUser
    · subst new
      simp only [update_self, some.injEq, Prod.mk.injEq] at opened
      obtain ⟨rfl, rfl⟩ := opened
      exact ⟨_, update_self .., rfl, rfl, by simp⟩
    · simp only [update_of_ne new] at opened ⊢
      obtain ⟨user, isUser, on, magic, notifier⟩ := inv.descriptor u j m opened
      refine ⟨user, isUser, on, magic, notifier.trans ?_⟩
      have owns := (inv.held u j m opened).1
      constructor
      · rintro ⟨q, rfl, told⟩
        exact ⟨q, rfl, by rwa [update_of_ne (unborn j q owns)]⟩
      · rintro ⟨q, rfl, told⟩
        exact ⟨q, rfl, by rwa [update_of_ne (unborn j q owns)] at told⟩
  · have := inv.silent j q
    grind
  · have := inv.registrant j q u
    grind
  · have := inv.pending j
    grind
  · simp only [update_apply]
    have := inv.marked j q
    have := inv.ahead q
    grind
  · simp only
    have := inv.ahead q
    grind
  · have := inv.gone q
    grind

theorem Inv.reopen (owns : (r.state.mqtab i).mq = some q) (flags : BitVec 32) : Inv none { r with
      state := { r.state with
        mqtab := update r.state.mqtab i
          { r.state.mqtab i with users := r.state.nextUser :: (r.state.mqtab i).users }
        user := update r.state.user r.state.nextUser (some ⟨flags, i, false, true⟩)
        nextUser := r.state.nextUser + 1 }
      opened := update r.opened r.state.nextUser (some (i, some q)) } := by
  have unopened : r.opened r.state.nextUser = none := by
    by_contra opened
    exact absurd (inv.handed _ opened) (lt_irrefl _)
  have unlisted : ∀ j, r.state.nextUser ∉ (r.state.mqtab j).users := fun j listed => by
    obtain ⟨m, opened⟩ := (inv.users _ j).mp listed
    exact absurd (unopened.symm.trans opened) (by simp)
  refine { inv with owned := inv.owned.touch (update_field (·.mq) rfl) (update_field (·.name) rfl) rfl rfl,
                    users := fun u j => ?_, nodup := fun j => ?_,
                    handed := fun u => ?_, held := fun u j m => ?_, descriptor := fun u j m => ?_, silent := fun j q => ?_,
                    registrant := fun j q u => ?_, pending := fun j => ?_, marked := fun j q => ?_ }
  · have old := inv.users u j
    by_cases new : u = r.state.nextUser
    · subst new
      by_cases here : j = i
      · simp [here]
      · simpa [here, Ne.symm here, unopened] using old
    · by_cases here : j = i
      · subst here
        simpa [new] using old
      · simpa [here, new] using old
  · have := inv.nodup j
    grind
  · have := inv.handed u
    grind
  · have := inv.held u j m
    grind
  · intro opened
    by_cases new : u = r.state.nextUser
    · subst new
      simp only [update_self, some.injEq, Prod.mk.injEq] at opened
      obtain ⟨rfl, rfl⟩ := opened
      refine ⟨_, update_self .., rfl, rfl, ?_⟩
      simp only [Bool.false_eq_true, false_iff, not_exists, not_and]
      rintro _ ⟨⟩ told
      exact unlisted i (inv.registrant i q _ owns told)
    · simp only [update_of_ne new] at opened ⊢
      exact inv.descriptor u j m opened
  · have := inv.silent j q
    grind
  · have := inv.registrant j q u
    grind
  · have := inv.pending j
    grind
  · have := inv.marked j q
    grind

theorem Inv.retell (opened : r.opened u = some (i, some q)) (isUser : r.state.user u = some user)
    {n : Option Nat} (ev : Option Nat) {asks : Bool} (free : ∀ v, r.state.notified q = some v → v = u)
    (mine : ∀ v, n = some v → v = u) (asked : asks = true ↔ n = some u) (silent : ev = none ↔ n = none) :
    Inv none { r with
      state := { r.state with
        mqtab := update r.state.mqtab i { r.state.mqtab i with sigev := ev }
        user := update r.state.user u (some { user with notifieruser := asks })
        notified := update r.state.notified q n } } := by
  have owns := (inv.held u i _ opened).1
  refine { inv with owned := inv.owned.touch (update_field (·.mq) rfl) (update_field (·.name) rfl) rfl rfl,
                    users := fun u j => ?_, nodup := fun j => ?_, held := fun u j m => ?_,
                    descriptor := fun v j m => ?_, silent := fun j p => ?_, registrant := fun j p v => ?_,
                    pending := fun j => ?_, marked := fun j q => ?_ }
  · have := inv.users u j
    grind
  · have := inv.nodup j
    grind
  · have := inv.held u j m
    grind
  · intro vOpened
    obtain ⟨old, isOld, on, magic, notifier⟩ := inv.descriptor v j m vOpened
    by_cases same : v = u
    · subst same
      obtain rfl := some.inj (isUser.symm.trans isOld)
      have sameQueue : (i, some q) = (j, m) := some.inj (opened.symm.trans vOpened)
      obtain ⟨rfl, rfl⟩ := sameQueue
      exact ⟨_, update_self .., on, magic, by simpa using asked⟩
    · refine ⟨old, by simpa [same] using isOld, on, magic, notifier.trans ?_⟩
      refine exists_congr fun p => and_congr_right fun _ => ?_
      by_cases here : p = q
      · subst here
        have before : r.state.notified p ≠ some v := fun told => same (free v told)
        have after : n ≠ some v := fun told => same (mine v told)
        simp [before, after]
      · simp [here]
  · have old := inv.silent j p
    have single := inv.owned.single j i
    grind
  · have old := inv.registrant j p v
    have listed := (inv.users u i).mpr ⟨_, opened⟩
    have single := inv.owned.single j i
    grind
  · have := inv.pending j
    grind
  · have := inv.marked j q
    grind

theorem Inv.silence (opened : r.opened u = some (i, some q)) (told : r.state.notified q = some u)
    (isUser : r.state.user u = some user) :
    Inv none { r with
      state := { r.state with
        mqtab := update r.state.mqtab i { r.state.mqtab i with sigev := none }
        user := update r.state.user u (some { user with notifieruser := false })
        notified := update r.state.notified q none } } :=
  inv.retell opened isUser none (fun _ same => some.inj (same.symm.trans told)) nofun (by simp) (by simp)

theorem Inv.register (opened : r.opened u = some (i, some q)) (silent : (r.state.mqtab i).sigev = none)
    (isUser : r.state.user u = some user) (ev : Nat) :
    Inv none { r with
      state := { r.state with
        mqtab := update r.state.mqtab i { r.state.mqtab i with sigev := some ev }
        user := update r.state.user u (some { user with notifieruser := true })
        notified := update r.state.notified q (some u) } } := by
  have untold := (inv.silent i q (inv.held u i _ opened).1).mp silent
  exact inv.retell opened isUser (some ev) (by simp [untold]) (fun _ same => (some.inj same).symm) (by simp)
    (by simp)

theorem Inv.leave (opened : r.opened u = some (i, some q)) (untold : r.state.notified q ≠ some u)
    (freed : Option (User c)) :
    Inv (some i) { r with
      state := { r.state with
        mqtab := update r.state.mqtab i { r.state.mqtab i with users := (r.state.mqtab i).users.erase u }
        user := update r.state.user u freed }
      opened := update r.opened u none } := by
  have owns := (inv.held u i _ opened).1
  refine { inv with owned := inv.owned.touch (update_field (·.mq) rfl) (update_field (·.name) rfl) rfl rfl,
                    users := fun v j => ?_, nodup := fun j => ?_, handed := fun v => ?_, held := fun u j m => ?_,
                    descriptor := fun v j m => ?_, silent := fun j p => ?_, registrant := fun j p v => ?_,
                    pending := fun j => ?_, marked := fun j p => ?_ }
  · have old := inv.users v j
    by_cases here : j = i
    · subst here
      simp only [update_self, (inv.nodup j).mem_erase_iff]
      by_cases same : v = u
      · simp [same]
      · simpa [same] using old
    · simp only [update_of_ne here]
      by_cases same : v = u
      · subst same
        simpa [opened, Ne.symm here] using old
      · simpa [same] using old
  · by_cases here : j = i
    · subst here
      simpa using (inv.nodup j).erase u
    · simpa [here] using inv.nodup j
  · have := inv.handed v
    grind
  · have := inv.held u j m
    grind
  · intro vOpened
    by_cases same : v = u
    · simp [same] at vOpened
    · simp only [update_of_ne same] at vOpened ⊢
      exact inv.descriptor v j m vOpened
  · have := inv.silent j p
    grind
  · intro pOwned told
    have kept := (update_field (i := i)
      (e := { r.state.mqtab i with users := (r.state.mqtab i).users.erase u }) (·.mq) rfl j).symm.trans pOwned
    have listed := inv.registrant j p v kept told
    by_cases here : j = i
    · subst here
      obtain rfl := some.inj (owns.symm.trans kept)
      have other : v ≠ u := fun same => untold (told.trans (by rw [same]))
      simpa [(inv.nodup j).mem_erase_iff] using ⟨other, listed⟩
    · simpa [here] using listed
  · intro other
    simpa [Ne.symm (show i ≠ j from fun same => other (by rw [same]))] using inv.pending j (by simp)
  · intro other
    simpa [Ne.symm (show i ≠ j from fun same => other (by rw [same]))] using inv.marked j p (by simp)

theorem Inv.doom (owns : (r.state.mqtab i).mq = some q) :
    Inv (some i) { r with unlinked := update r.unlinked q true } := by
  have born := inv.owned.fresh i q owns
  refine { inv with pending := fun j _ => inv.pending j (by simp), marked := fun j p other pOwned => ?_,
                    ahead := fun p (young : r.state.nextQueue ≤ p) => ?_, ended := fun p dead => ?_ }
  · have apart : p ≠ q := fun same => other (by rw [inv.owned.single i j q owns (same ▸ pOwned)])
    simpa [apart] using inv.marked j p (by simp) pOwned
  · have apart : p ≠ q := by omega
    simpa [apart] using inv.ahead p young
  · have := inv.ended p dead
    grind

end

theorem Inv.mark (inv : Inv (some i) r) (owns : (r.state.mqtab i).mq = some q) (unlinked : r.unlinked q = true)
    (used : (r.state.mqtab i).users ≠ []) :
    Inv none { r with
      state := { r.state with mqtab := update r.state.mqtab i { r.state.mqtab i with unlinkme := true } } } := by
  refine { inv with owned := inv.owned.touch (update_field (·.mq) rfl) (update_field (·.name) rfl) rfl rfl,
                    users := fun u j => ?_, nodup := fun j => ?_, held := fun u j m => ?_,
                    silent := fun j p => ?_, registrant := fun j p v => ?_, pending := fun j => ?_, marked := fun j p => ?_ }
  · have := inv.users u j
    grind
  · have := inv.nodup j
    grind
  · have := inv.held u j m
    grind
  · have := inv.silent j p
    grind
  · have := inv.registrant j p v
    grind
  · have := inv.pending j
    grind
  · have := inv.marked j p
    grind

theorem Inv.settle (inv : Inv (some i) r) (used : (r.state.mqtab i).unlinkme = true → (r.state.mqtab i).users ≠ [])
    (marked : ∀ q, (r.state.mqtab i).mq = some q → (r.unlinked q = true ↔ (r.state.mqtab i).unlinkme = true)) :
    Inv none r := by
  refine { inv with pending := fun j _ => ?_, marked := fun j q _ => ?_ }
  · by_cases here : j = i
    · subst here
      exact fun on _ => used on
    · exact inv.pending j (by simpa using Ne.symm here)
  · by_cases here : j = i
    · subst here
      exact marked q
    · exact inv.marked j q (by simpa using Ne.symm here)

/-- A queue that is unlinked and has no users is destroyed. -/
theorem Inv.destroy (inv : Inv (some i) r) (owns : (r.state.mqtab i).mq = some q) (unlinked : r.unlinked q = true)
    (unused : (r.state.mqtab i).users = []) :
    Inv none { r with
      state := { r.state with
        mqtab := update r.state.mqtab i { r.state.mqtab i with name := [], mq := none }
        live := update r.state.live q false
        destroyed := q :: r.state.destroyed } } := by
  have vacant : ∀ u m, r.opened u ≠ some (i, m) := fun u m opened => by
    have listed := (inv.users u i).mpr ⟨m, opened⟩
    simp [unused] at listed
  have alive : r.state.live q = true := (inv.owned.live q).mpr ⟨i, owns⟩
  have born := inv.owned.fresh i q owns
  refine { inv with owned := ⟨fun p => ?_, fun j k p => ?_, fun j p => ?_, fun j => ?_, fun j => ?_, fun j k => ?_⟩,
                    users := fun u j => ?_, nodup := fun j => ?_, held := fun u j m => ?_, silent := fun j p => ?_,
                    registrant := fun j p v => ?_, pending := fun j => ?_, marked := fun j p => ?_, gone := fun p => ?_,
                    once := ?_, ended := fun p => ?_ }
  · have old := inv.owned.live p
    have single := inv.owned.single i
    simp only [update_apply]
    grind
  · have := inv.owned.single j k p
    grind
  · have := inv.owned.fresh j p
    grind
  · have := inv.owned.named j
    grind
  · have := inv.owned.short j
    grind
  · have := inv.owned.distinct j k
    grind
  · have := inv.users u j
    grind
  · have := inv.nodup j
    grind
  · have := inv.held u j m
    grind
  · have := inv.silent j p
    grind
  · have := inv.registrant j p v
    grind
  · have := inv.pending j
    grind
  · have := inv.marked j p
    grind
  · have := inv.gone p
    grind
  · have := inv.gone q
    exact nodup_cons.mpr ⟨by simp [this, alive], inv.once⟩
  · simp only [mem_cons]
    rintro (rfl | dead)
    · exact unlinked
    · exact inv.ended p dead

namespace State
variable {s : State c} {name : Name} {oflag : BitVec 32} {memory : Memory}

theorem lookup_some (found : s.lookup name = some i) : name.take c.pathMax = (s.mqtab i).name.take c.pathMax := by
  simpa using find?_some found

theorem lookup_none (missing : s.lookup name = none) (i : Fin c.openMax) :
    name.take c.pathMax ≠ (s.mqtab i).name.take c.pathMax := by
  simpa using find?_eq_none.mp missing i (mem_finRange i)

theorem emptyEntry_some (found : s.emptyEntry = some i) : (s.mqtab i).mq = none := by
  simpa using find?_some found

theorem create_ok (attr : Attr) (garbage : Bool) : s.create i name oflag attr ⟨true, true, true, garbage⟩ =
      ({ s with
        mqtab := update s.mqtab i
          ⟨name.take c.pathMax, some s.nextQueue, attr.maxmsg, attr.msgsize, false, [s.nextUser], none⟩
        user := update s.user s.nextUser (some ⟨oflag ||| (attr.flags &&& oNonblock), i, false, true⟩)
        notified := update s.notified s.nextQueue none
        live := update s.live s.nextQueue true
        nextUser := s.nextUser + 1
        nextQueue := s.nextQueue + 1 }, .descriptor s.nextUser) := by
  simp [create, setEntry, setUser]

theorem create_noHolder (attr : Attr) (none : memory.holder = false) :
    s.create i name oflag attr memory = (s, .error .enospc) := by simp [create, none]

theorem reopen_ok (unmarked : (s.mqtab i).unlinkme = false) (room : memory.user = true) : s.reopen i oflag memory =
      ({ s with
        mqtab := update s.mqtab i { s.mqtab i with users := s.nextUser :: (s.mqtab i).users }
        user := update s.user s.nextUser (some ⟨oflag, i, memory.garbage, true⟩)
        nextUser := s.nextUser + 1 }, .descriptor s.nextUser) := by
  simp [reopen, unmarked, room, setEntry, setUser]

theorem setnotify_live {q : Nat} {v : Option Nat} (live : s.live q = true) :
    s.setnotify (some q) v = { s with notified := update s.notified q v } := if_pos live

theorem doMqUnlink_live {q : Nat} (owns : (s.mqtab i).mq = some q) (live : s.live q = true) :
    s.doMqUnlink i = { s with
      mqtab := update s.mqtab i { s.mqtab i with name := [], mq := none }
      live := update s.live q false
      destroyed := q :: s.destroyed } := by
  simp [doMqUnlink, destroy, owns, live, setEntry]

theorem mqOpen_cases (s : State c) (name : Name) (oflag : BitVec 32) (attr : Option Attr) (memory : Memory) :
    (∃ e, s.mqOpen name oflag attr memory = (s, .error e)) ∨
    (∃ i attr', s.lookup name = none ∧ has oflag oCreat = true ∧ s.emptyEntry = some i ∧
      s.mqOpen name oflag attr memory = s.create i name oflag attr' memory) ∨
    ∃ i, s.lookup name = some i ∧ has oflag oExcl = false ∧ s.mqOpen name oflag attr memory = s.reopen i oflag memory := by
  unfold mqOpen
  split
  · exact .inl ⟨_, rfl⟩
  · cases found : s.lookup name with
    | some i =>
      cases excl : has oflag oExcl with
      | true => exact .inl ⟨_, if_pos rfl⟩
      | false => exact .inr (.inr ⟨i, rfl, rfl, if_neg Bool.false_ne_true⟩)
    | none =>
      cases creat : has oflag oCreat with
      | false => exact .inl ⟨_, if_neg Bool.false_ne_true⟩
      | true =>
        rw [if_pos rfl]
        cases vacant : s.emptyEntry with
        | none => exact .inl ⟨_, rfl⟩
        | some i =>
          cases attr with
          | none => exact .inr (.inl ⟨i, _, rfl, rfl, rfl, rfl⟩)
          | some attr =>
            dsimp only
            split
            · exact .inl ⟨_, rfl⟩
            · exact .inr (.inl ⟨i, attr, rfl, rfl, rfl, rfl⟩)

theorem destroy_kept (m : Option Nat) : (s.destroy m).notified = s.notified ∧ (s.destroy m).mqtab = s.mqtab := by
  unfold destroy
  split
  · exact ⟨rfl, rfl⟩
  · split <;> exact ⟨rfl, rfl⟩

theorem doMqUnlink_kept (i j : Fin c.openMax) : (s.doMqUnlink i).notified = s.notified ∧
    ((s.doMqUnlink i).mqtab j).sigev = (s.mqtab j).sigev := by
  refine ⟨(destroy_kept _).1, ?_⟩
  unfold doMqUnlink setEntry
  rw [(destroy_kept _).2]
  by_cases here : j = i <;> simp [here]

end State

theorem act_state (r : Run c) (a : Act) : (r.act a).state = (r.state.call a).1 := by
  unfold act learn
  split
  · rfl
  · rfl
  · split
    · rfl
    · split <;> rfl
    · rfl

theorem Owned.found_used {s : State c} (owned : Owned s) {name : Name} (found : s.lookup name = some i)
    (named : name ≠ []) : ∃ q, (s.mqtab i).mq = some q := by
  refine ne_none_iff_exists'.mp fun empty => ?_
  have same := lookup_some found
  rw [(owned.named i).mp empty] at same
  have := c.path
  simp [named] at same
  omega

/-- A call keeps the invariant, and changes nothing if it fails. -/
def Keeps (r : Run c) (a : Act) : Prop :=
  Inv none (r.act a) ∧ ∀ e, (r.state.call a).2 = .error e → (r.state.call a).1 = r.state

theorem Inv.fails (inv : Inv none r) {a : Act} {e : Errno} (fails : r.state.call a = (r.state, .error e)) : Keeps r a := by
  refine ⟨?_, fun _ _ => by rw [fails]⟩
  unfold act
  rw [fails]
  exact inv

theorem keeps_of {a : Act} {s : State c} {v : Result} (call : r.state.call a = (s, v))
    (succeeds : ∀ e, v ≠ .error e) (kept : Inv none (r.learn a s v)) : Keeps r a := by
  refine ⟨?_, fun e fails => absurd fails ?_⟩
  · unfold act
    rw [call]
    exact kept
  · rw [call]
    exact succeeds e

section
variable (inv : Inv none r)
include inv

theorem Inv.mqOpen {name : Name} {oflag : BitVec 32} {attr : Option Attr} {memory : Memory}
    (gentle : r.Gentle (.mqOpen name oflag attr memory)) : Keeps r (.mqOpen name oflag attr memory) := by
  obtain ⟨making, opening⟩ := gentle
  rcases mqOpen_cases r.state name oflag attr memory with
    ⟨e, fails⟩ | ⟨i, attr', missing, creat, vacant, comes⟩ | ⟨i, found, free, comes⟩
  · exact inv.fails fails
  · cases holder : memory.holder with
    | false => exact inv.fails (comes.trans (create_noHolder attr' holder))
    | true =>
      obtain ⟨space, user⟩ := making ⟨missing, creat, by simp [vacant]⟩ holder
      have empty := emptyEntry_some vacant
      have named : name ≠ [] := by
        rintro rfl
        exact lookup_none missing i (by rw [(inv.owned.named i).mp empty])
      have short : (name.take c.pathMax).take c.pathMax = name.take c.pathMax := by rw [take_take, min_self]
      have taken : name.take c.pathMax ≠ [] := by
        have := c.path
        simp [named, Nat.pos_iff_ne_zero.mp this]
      have made := inv.create empty taken short (fun j same => lookup_none missing j (by rw [same, short]))
        (oflag ||| (attr'.flags &&& oNonblock)) attr'.maxmsg attr'.msgsize
      have all : memory = ⟨true, true, true, memory.garbage⟩ := by
        rcases memory with ⟨_, _, _, _⟩
        simp only [Memory.mk.injEq, and_true]
        exact ⟨holder, space, user⟩
      rw [all, create_ok, ← all] at comes
      refine keeps_of comes (by simp) ?_
      simpa [learn] using made
  · cases marked : (r.state.mqtab i).unlinkme with
    | true => exact inv.fails (e := .einval) (comes.trans (by simp [State.reopen, marked]))
    | false =>
      cases room : memory.user with
      | false => exact inv.fails (e := .enospc) (comes.trans (by simp [State.reopen, marked, room]))
      | true =>
        obtain ⟨named, clean⟩ := opening i found free marked room
        obtain ⟨q, owns⟩ := inv.owned.found_used found named
        have made := inv.reopen owns oflag
        refine keeps_of (comes.trans (reopen_ok marked room)) (by simp) ?_
        simpa [learn, clean, owns] using made

theorem Inv.opens (opened : r.opened u ≠ none) : ∃ i q user, r.opened u = some (i, some q) ∧
    (r.state.mqtab i).mq = some q ∧ r.state.live q = true ∧ r.state.user u = some user ∧ user.tabent = i ∧
      user.magic = true ∧ (user.notifieruser = true ↔ r.state.notified q = some u) := by
  obtain ⟨⟨i, m⟩, opened⟩ := ne_none_iff_exists'.mp opened
  obtain ⟨owns, used⟩ := inv.held u i m opened
  obtain ⟨q, rfl⟩ := ne_none_iff_exists'.mp used
  obtain ⟨user, isUser, on, magic, notifier⟩ := inv.descriptor u i _ opened
  exact ⟨i, q, user, opened, owns, (inv.owned.live q).mpr ⟨i, owns⟩, isUser, on, magic, by simpa using notifier⟩

theorem Inv.mqNotify {notification : Option Nat} (opened : r.opened u ≠ none)
    (gentle : r.Gentle (.mqNotify u notification)) : Keeps r (.mqNotify u notification) := by
  obtain ⟨i, q, user, opened, owns, live, isUser, rfl, magic, -⟩ := inv.opens opened
  cases notification with
  | none =>
    -- there is no notification to clear
    have silent := gentle user isUser
    have untold := (inv.silent _ q owns).mp silent
    have unchanged : update r.state.notified q none = r.state.notified := by
      have self := update_eq_self q r.state.notified
      rwa [untold] at self
    have entry : { r.state.mqtab user.tabent with sigev := none } = r.state.mqtab user.tabent := by
      cases isEntry : r.state.mqtab user.tabent
      simpa [isEntry] using silent.symm
    have same : r.state.call (.mqNotify u none) = (r.state, .ok) := by
      simp only [State.call, State.mqNotify, isUser, magic, if_true, owns, State.setnotify_live live, State.setEntry,
        unchanged]
      rw [← owns, entry, update_eq_self]
    exact keeps_of same (by simp) inv
  | some ev =>
    cases silent : (r.state.mqtab user.tabent).sigev with
    | some _ => exact inv.fails (e := .ebusy) (by simp [State.call, State.mqNotify, isUser, magic, silent])
    | none =>
      have made := inv.register opened silent isUser ev
      refine keeps_of (s := _) (v := .ok) ?_ (by simp) (by simpa [learn] using made)
      simp [State.call, State.mqNotify, isUser, magic, silent, State.setEntry, State.setUser, owns, State.setnotify, live]

theorem Inv.message (live : r.state.live q = true) : Keeps r (.message q) := by
  obtain ⟨i, owns⟩ := (inv.owned.live q).mp live
  cases told : r.state.notified q with
  | none => exact keeps_of (s := r.state) (v := .ok) (by simp [call, told]) (by simp) inv
  | some u =>
    obtain ⟨m, opened⟩ := (inv.users u i).mp (inv.registrant i q u owns told)
    have opened : r.opened u = some (i, some q) := by
      rw [opened, ← (inv.held u i m opened).1, owns]
    obtain ⟨user, isUser, on, -⟩ := inv.descriptor u i _ opened
    have heard : (r.state.mqtab i).sigev ≠ none := fun silent => by simp [(inv.silent i q owns).mp silent] at told
    have made := inv.silence opened told isUser
    refine keeps_of (s := _) (v := .ok) ?_ (by simp) (by simpa [learn] using made)
    simp [call, told, notifyme, isUser, on, heard, setEntry, setUser, setnotify, live]

theorem Inv.closed (opened : r.opened u = some (i, some q)) (untold : r.state.notified q ≠ some u)
    (freed : Option (User c)) {s : State c}
    (left : s = { r.state with
      mqtab := update r.state.mqtab i { r.state.mqtab i with users := (r.state.mqtab i).users.erase u }
      user := update r.state.user u freed }) :
    Inv none { r with
      state := if (s.mqtab i).unlinkme = true ∧ (s.mqtab i).users = [] then s.doMqUnlink i else s
      opened := update r.opened u none } := by
  have gone := inv.leave opened untold freed
  rw [← left] at gone
  have owns := (inv.held u i _ opened).1
  have kept : (s.mqtab i).mq = some q := by simp [left, owns]
  have unlinkme : (s.mqtab i).unlinkme = (r.state.mqtab i).unlinkme := by simp [left]
  have marked := inv.marked i q (by simp) owns
  split
  · next last =>
    have live : s.live q = true := by
      rw [left]
      exact (inv.owned.live q).mpr ⟨i, owns⟩
    rw [doMqUnlink_live kept live]
    exact gone.destroy kept (marked.mpr (unlinkme ▸ last.1)) last.2
  · next more =>
    refine gone.settle (fun on none => more ⟨on, none⟩) fun p owns' => ?_
    obtain rfl := some.inj (kept.symm.trans owns')
    show r.unlinked q = true ↔ (s.mqtab i).unlinkme = true
    rw [unlinkme]
    exact marked

theorem Inv.mqClose (opened : r.opened u ≠ none) : Keeps r (.mqClose u) := by
  obtain ⟨i, q, user, opened, owns, live, isUser, rfl, magic, notifier⟩ := inv.opens opened
  cases asked : user.notifieruser with
  | false =>
    have untold : r.state.notified q ≠ some u := fun told => by simp [notifier.mpr told] at asked
    have made := inv.closed opened untold (some { user with magic := false }) rfl
    refine keeps_of (s := _) (v := .ok) ?_ (by simp) (by simpa only [learn] using made)
    simp only [State.call, State.mqClose, isUser, magic, asked, State.setEntry, State.setUser]
    simp only [if_true, Bool.false_eq_true, if_false]
    split <;> rfl
  | true =>
    have told := notifier.mp asked
    have quiet := inv.silence opened told isUser
    have made := quiet.closed opened (by simp) (some { user with magic := false }) rfl
    refine keeps_of (s := _) (v := .ok) ?_ (by simp) (by simpa only [learn] using made)
    simp only [State.call, State.mqClose, isUser, magic, asked, State.setEntry, State.setUser, owns,
      State.setnotify_live live]
    simp only [if_true, update_idem, update_self]
    split <;> rfl

theorem Inv.mqUnlink {name : Name} (gentle : r.Gentle (.mqUnlink name)) : Keeps r (.mqUnlink name) := by
  cases found : r.state.lookup name with
  | none => exact inv.fails (e := .enoent) (by simp [State.call, State.mqUnlink, found])
  | some i =>
    have named : name ≠ [] := fun same => by simp [gentle same] at found
    obtain ⟨q, owns⟩ := inv.owned.found_used found named
    have live := (inv.owned.live q).mpr ⟨i, owns⟩
    have doomed := inv.doom owns
    by_cases users : (r.state.mqtab i).users = []
    · have made := doomed.destroy owns (by simp) users
      refine keeps_of (s := _) (v := .ok) ?_ (by simp) (by simpa [learn, found, owns] using made)
      simp [State.call, State.mqUnlink, found, users, State.doMqUnlink_live owns live]
    · have made := doomed.mark owns (by simp) users
      refine keeps_of (s := _) (v := .ok) ?_ (by simp) (by simpa [learn, found, owns] using made)
      simp [State.call, State.mqUnlink, found, users, State.setEntry, owns]

theorem Inv.keeps {a : Act} (enabled : r.Enabled a) (gentle : r.Gentle a) : Keeps r a := by
  cases a with
  | mqOpen name oflag attr memory => exact inv.mqOpen gentle
  | mqClose u => exact inv.mqClose enabled
  | mqUnlink name => exact inv.mqUnlink gentle
  | mqNotify u notification => exact inv.mqNotify enabled gentle
  | message q => exact inv.message enabled

end

/-- The program's runs of the calls that meet `Ok`. -/
def machine (c : Config) (Ok : Run c → Act → Prop) : Machine (Run c) :=
  .guided (fun r => r = Run.initial c) (fun r a => r.Enabled a ∧ Ok r a) Run.act

theorem reach_inv (reach : (machine c Run.Gentle).Reach r) : Inv none r := by
  refine reach.kept (P := Inv none) ?_ fun r a inv ok => (inv.keeps ok.1 ok.2).1
  rintro _ rfl
  exact .initial

/-- The user that the queue of an entry is to notify. -/
def State.registrant (s : State c) (i : Fin c.openMax) : Option Nat := (s.mqtab i).mq.bind s.notified

/-- The table is what the program has made of it: the entries with a queue own the live ones and have
names of their own; the users of an entry are the descriptors open on it; the user that has
`notifieruser` set is the one to be notified; and the queues destroyed, each once, are those
unlinked that have no open descriptor. -/
structure Run.Consistent (r : Run c) : Prop where
  owner : ∀ i, (r.state.mqtab i).mq ≠ none ↔ ∃ q, (r.state.mqtab i).mq = some q ∧ r.state.live q = true
  owned : ∀ q, r.state.live q = true → ∃! i, (r.state.mqtab i).mq = some q
  named : ∀ i, (r.state.mqtab i).mq ≠ none → (r.state.mqtab i).name ≠ []
  distinct : ∀ i j, (r.state.mqtab i).mq ≠ none → (r.state.mqtab j).mq ≠ none →
    (r.state.mqtab i).name = (r.state.mqtab j).name → i = j
  users : ∀ u i, u ∈ (r.state.mqtab i).users ↔ r.opened u = some (i, (r.state.mqtab i).mq)
  nodup : ∀ i, (r.state.mqtab i).users.Nodup
  notifier : ∀ u i, u ∈ (r.state.mqtab i).users → ∃ user, r.state.user u = some user ∧
    (user.notifieruser = true ↔ r.state.registrant i = some u)
  silent : ∀ i, (r.state.mqtab i).mq ≠ none → ((r.state.mqtab i).sigev = none ↔ r.state.registrant i = none)
  once : r.state.destroyed.Nodup
  destroyed : ∀ q, q ∈ r.state.destroyed ↔
    q < r.state.nextQueue ∧ r.unlinked q = true ∧ ∀ u i, r.opened u ≠ some (i, some q)

theorem Inv.consistent (inv : Inv none r) : r.Consistent where
  owner i := by
    constructor
    · intro used
      obtain ⟨q, owns⟩ := ne_none_iff_exists'.mp used
      exact ⟨q, owns, (inv.owned.live q).mpr ⟨i, owns⟩⟩
    · rintro ⟨q, owns, -⟩
      simp [owns]
  owned q live := by
    obtain ⟨i, owns⟩ := (inv.owned.live q).mp live
    exact ⟨i, owns, fun j other => inv.owned.single j i q other owns⟩
  named i used := (inv.owned.named i).not.mp used
  distinct i j used _ same := inv.owned.distinct i j same ((inv.owned.named i).not.mp used)
  users u i := by
    rw [inv.users]
    constructor
    · rintro ⟨m, opened⟩
      rw [opened, (inv.held u i m opened).1]
    · exact fun opened => ⟨_, opened⟩
  nodup := inv.nodup
  notifier u i listed := by
    obtain ⟨m, opened⟩ := (inv.users u i).mp listed
    obtain ⟨user, isUser, -, -, notifier⟩ := inv.descriptor u i m opened
    refine ⟨user, isUser, notifier.trans ?_⟩
    rw [State.registrant, (inv.held u i m opened).1, bind_eq_some_iff]
  silent i used := by
    obtain ⟨q, owns⟩ := ne_none_iff_exists'.mp used
    rw [State.registrant, owns]
    exact inv.silent i q owns
  once := inv.once
  destroyed q := by
    constructor
    · intro dead
      obtain ⟨born, notLive⟩ := (inv.gone q).mp dead
      refine ⟨born, inv.ended q dead, fun u i opened => ?_⟩
      have live := (inv.owned.live q).mpr ⟨i, (inv.held u i _ opened).1⟩
      simp [live] at notLive
    · rintro ⟨born, unlinked, unopened⟩
      refine (inv.gone q).mpr ⟨born, Bool.eq_false_iff.mpr fun live => ?_⟩
      obtain ⟨i, owns⟩ := (inv.owned.live q).mp live
      have used := inv.pending i (by simp) ((inv.marked i q (by simp) owns).mp unlinked) (by simp [owns])
      obtain ⟨u, listed⟩ := exists_mem_of_ne_nil _ used
      obtain ⟨m, opened⟩ := (inv.users u i).mp listed
      have same := (inv.held u i m opened).1
      rw [owns] at same
      exact unopened u i (same ▸ opened)

theorem State.mqClose_kept {s : State c} {j : Fin c.openMax} {p : Nat} (isUser : s.user u = some user)
    (magic : user.magic = true) (owns : (s.mqtab user.tabent).mq = some p) (live : s.live p = true)
    (other : user.notifieruser = true → q ≠ p ∧ j ≠ user.tabent) :
    (s.mqClose u).1.notified q = s.notified q ∧ ((s.mqClose u).1.mqtab j).sigev = (s.mqtab j).sigev := by
  have rest : ∀ s' : State c, s'.notified q = s.notified q → (s'.mqtab j).sigev = (s.mqtab j).sigev →
      (if (s'.mqtab user.tabent).unlinkme = true ∧ (s'.mqtab user.tabent).users = [] then
        (s'.doMqUnlink user.tabent, Result.ok) else (s', .ok)).1.notified q = s.notified q ∧
      ((if (s'.mqtab user.tabent).unlinkme = true ∧ (s'.mqtab user.tabent).users = [] then
        (s'.doMqUnlink user.tabent, Result.ok) else (s', .ok)).1.mqtab j).sigev = (s.mqtab j).sigev := by
    intro s' notified sigev
    split
    · obtain ⟨kept, same⟩ := doMqUnlink_kept (s := s') user.tabent j
      exact ⟨(congrFun kept q).trans notified, same.trans sigev⟩
    · exact ⟨notified, sigev⟩
  simp only [mqClose, isUser, magic, if_true]
  cases asked : user.notifieruser with
  | false =>
    rw [if_neg Bool.false_ne_true]
    refine rest _ rfl ?_
    by_cases here : j = user.tabent <;> simp [setEntry, setUser, here]
  | true =>
    obtain ⟨apart, away⟩ := other asked
    rw [if_pos rfl, owns, setnotify_live live]
    refine rest _ ?_ ?_
    · exact update_of_ne apart _ _
    · simp [setEntry, setUser, away]

theorem Inv.close_other (inv : Inv none r) {v : Nat} (opened : r.opened u ≠ none) (other : v ≠ u)
    (told : r.state.registrant i = some v) :
    (r.act (.mqClose u)).state.registrant i = some v ∧
      ((r.act (.mqClose u)).state.mqtab i).sigev = (r.state.mqtab i).sigev := by
  have after := (inv.mqClose opened).1
  obtain ⟨q, owns, told⟩ := bind_eq_some_iff.mp told
  obtain ⟨m, vOpened⟩ := (inv.users v i).mp (inv.registrant i q v owns told)
  obtain ⟨j, p, user, uOpened, pOwned, live, isUser, rfl, magic, notifier⟩ := inv.opens opened
  have apart : user.notifieruser = true → q ≠ p ∧ i ≠ user.tabent := by
    intro asked
    have different : q ≠ p := by
      rintro rfl
      exact other (some.inj (told.symm.trans (notifier.mp asked)))
    refine ⟨different, ?_⟩
    rintro rfl
    exact different (some.inj (owns.symm.trans pOwned))
  obtain ⟨notified, sigev⟩ := mqClose_kept isUser magic pOwned live apart
  have still : (r.act (.mqClose u)).opened v = some (i, m) := by
    have success : (r.state.call (.mqClose u)).2 = .ok := by
      simp only [State.call, State.mqClose, isUser, magic, if_true]
      generalize (if user.notifieruser = true then _ else r.state : State c) = s
      split <;> rfl
    unfold act
    rw [success]
    simpa [learn, other] using vOpened
  have owns' := (after.held v i m still).1
  rw [← (inv.held v i m vOpened).1, owns] at owns'
  rw [State.registrant, owns', act_state]
  exact ⟨notified.trans told, sigev⟩

/-- In every run of gentle calls the table is consistent; a call that fails changes nothing; and
closing a descriptor leaves the notifications of the others as they are. -/
theorem mqtab_consistent (reach : (machine c Run.Gentle).Reach r) : r.Consistent ∧
    (∀ a, r.Enabled a → r.Gentle a → ∀ e, (r.state.call a).2 = .error e → (r.state.call a).1 = r.state) ∧
    ∀ u v i, r.opened u ≠ none → v ≠ u → r.state.registrant i = some v →
      (r.act (.mqClose u)).state.registrant i = some v ∧
        ((r.act (.mqClose u)).state.mqtab i).sigev = (r.state.mqtab i).sigev := by
  have inv := reach_inv reach
  exact ⟨inv.consistent, fun a enabled gentle => (inv.keeps enabled gentle).2,
    fun u v i opened other told => inv.close_other opened other told⟩

/-- A table of one entry. -/
def Config.one : Config := ⟨1, 255, by decide⟩

/-- A call of `mq_open` for a new queue, in which no allocation fails. -/
def openNew : Act := .mqOpen [⟨97, by decide⟩] (oCreat ||| oRdwr) none ⟨true, true, true, false⟩

theorem mqtab_consistent_one : ((Run.initial .one).act openNew).Consistent := by
  have reach : (machine .one Run.Gentle).Reach ((Run.initial .one).act openNew) := by
    refine .next (.start rfl) ⟨openNew, ⟨trivial, fun _ _ => ⟨rfl, rfl⟩, ?_⟩, rfl⟩
    have missing : ∀ i, (Run.initial Config.one).state.lookup [⟨97, by decide⟩] ≠ some i := by decide
    exact fun i found => absurd found (missing i)
  exact (mqtab_consistent reach).1

/-- The space for the messages cannot be allocated: `mq_open` fails, and the entry is lost. -/
theorem mqtab_changed :
    ¬ ∀ r : Run .one, (machine .one fun _ _ => True).Reach r → r.Consistent ∧
      ∀ a, r.Enabled a → ∀ e, (r.state.call a).2 = .error e → (r.state.call a).1 = r.state := by
  intro always
  have unchanged := (always _ (.start rfl)).2
    (.mqOpen [⟨97, by decide⟩] (oCreat ||| oRdwr) none ⟨true, false, true, false⟩) trivial .enospc (by decide)
  exact absurd (congrArg (fun s : State .one => (s.mqtab ⟨0, by decide⟩).mq) unchanged) (by decide)

end Ecos.Posix.Mqtab
