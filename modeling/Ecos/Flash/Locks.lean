import Ecos.Flash.ErrorsSafety

namespace Ecos.Flash.Errors
open Function List Nat
variable {devs : List Dev} {drv : Driver} {given : Bool} {d e : Dev} {op : Op} {base len fuel fuel' a : Nat}
  {stat : Int}
  {turns : List Turn} {p : Part} {held held' : Nat → Bool} {locked : Nat → Bool}

/-- `cyg_flash_mutex_lock`; `none` if a mutex is waited for for ever, or the fuel is used up. -/
def cygFlashMutexLock (devs : List Dev) : Nat → (Nat → Bool) → Nat → Nat → Option (Int × (Nat → Bool))
  | 0, _, _, _ => none
  | fuel + 1, held, base, len =>
    match findDev devs base with
    | none => some (cygFlashErrInvalid, held)
    | some d => do
      let held ← lock held d
      if len > sub32 (d.last + 1) base then
        let (stat, held) ← cygFlashMutexLock devs fuel held ((d.last + 1) % 2 ^ 32) (len - sub32 (d.last + 1) base)
        some (stat, if stat ≠ cygFlashErrOk then unlock held d else held)
      else some (cygFlashErrOk, held)

/-- `cyg_flash_mutex_unlock`. For the devices behind the first it calls `cyg_flash_mutex_lock`. -/
def cygFlashMutexUnlock (devs : List Dev) (fuel : Nat) (held : Nat → Bool) (base len : Nat) : Option (Int ×
    (Nat → Bool)) :=
  match findDev devs base with
  | none => some (cygFlashErrInvalid, held)
  | some d =>
    let held := unlock held d
    if len > sub32 (d.last + 1) base then do
      let (stat, held) ← cygFlashMutexLock devs fuel held ((d.last + 1) % 2 ^ 32) (len - sub32 (d.last + 1) base)
      if stat ≠ cygFlashErrOk then
        let held ← lock held d
        some (stat, held)
      else some (stat, held)
    else some (cygFlashErrOk, held)

/-- Two addresses in one block. -/
def sharesBlock (devs : List Dev) (x a : Nat) : Bool :=
  devs.any fun d => d.blocks.any fun b => decide (b.1 ≤ x ∧ x < b.1 + b.2 ∧ b.1 ≤ a ∧ a < b.1 + b.2)

/-- What a call of `flash_block_lock` or `flash_block_unlock` does to the locks, by the address. -/
def Turn.apply (devs : List Dev) (locked : Nat → Bool) (t : Turn) : Nat → Bool := fun a =>
  if t.stat = cygFlashErrOk ∧ sharesBlock devs t.addr a = true then
    match t.op with
    | .lock => true
    | .unlock => false
    | _ => locked a
  else locked a

/-- The blocks that are locked after the turns. -/
def lockedAfter (devs : List Dev) (turns : List Turn) (locked : Nat → Bool) : Nat → Bool := turns.foldl
    (Turn.apply devs) locked

/-- An operation that returns without an error leaves every block with an address of the range locked, or unlocked. -/
def Leaves (devs : List Dev) (drv : Driver) (given : Bool) (op : Op) (state : Bool) (base len : Nat) : Prop :=
  ∀ locked fuel r, operate devs drv given fuel op (fun _ => false) base len = some r → r.stat = cygFlashErrOk →
    ∀ b, Touched devs base len b → ∀ a, b.1 ≤ a → a < b.1 + b.2 → lockedAfter devs r.turns locked a = state

/-- The functions that lock and unlock a range of addresses are each other's inverse. -/
structure Inverse (devs : List Dev) (drv : Driver) (given : Bool) (base len : Nat) : Prop where
  pair : ∀ held fuel held', cygFlashMutexLock devs fuel held base len = some (cygFlashErrOk, held') →
    ∃ fuel', cygFlashMutexUnlock devs fuel' held' base len = some (cygFlashErrOk, held)
  undo : ∀ held fuel stat held', cygFlashMutexLock devs fuel held base len = some (stat, held') → stat ≠ cygFlashErrOk →
    held' = held
  locks : Leaves devs drv given .lock true base len
  unlocks : Leaves devs drv given .unlock false base len

theorem mutexLock_covered (apart : Apart devs) (found : findDev devs base = some d) (covered : Covered devs base len)
    (free : ∀ e ∈ devs, base ≤ e.last → held e.start = false) (enough : len < fuel) :
    ∃ held', cygFlashMutexLock devs fuel held base len = some (cygFlashErrOk, held') ∧ held' d.start = true ∧
      ∀ s, held s = true → held' s = true := by
  induction fuel generalizing held base len d with
  | zero => omega
  | succ fuel ih =>
    obtain ⟨mem, low, high⟩ := findDev_some found
    have here := free d mem high
    have kept : ∀ s, held s = true → update held d.start true s = true := fun s isHeld => by
      by_cases same : s = d.start
      · rw [same, update_self]
      · rw [update_of_ne same, isHeld]
    have locks : lock held d = some (update held d.start true) := by simp [lock, here]
    rw [cygFlashMutexLock, found]
    simp only [locks, Option.bind_eq_bind, Option.bind_some, d.room_eq low high]
    by_cases past : len > d.last + 1 - base
    · obtain ⟨e, mod, next, _, covered'⟩ := apart.next found covered past
      have free' : ∀ e ∈ devs, d.last + 1 ≤ e.last → update held d.start true e.start = false := fun e there
        after => by
        rw [update_of_ne]
        · exact free e there (by omega)
        · intro same
          obtain rfl := @Apart.same _ _ _ d.start apart mem there ⟨le_rfl, d.proper⟩
            ⟨by omega, by have := e.proper; omega⟩
          omega
      obtain ⟨held', later, _, more⟩ := ih next covered' free' (by omega)
      rw [if_pos past, mod, later]
      exact ⟨held', by simp, more _ (update_self ..), fun s isHeld => more s (kept s isHeld)⟩
    · rw [if_neg past]
      exact ⟨_, rfl, update_self .., kept⟩

theorem Inverse.within (apart : Apart devs) (covered : Covered devs base len)
    (inverse : Inverse devs drv given base len)
    (found : findDev devs base = some d) : len ≤ d.last + 1 - base := by
  by_contra past
  obtain ⟨mem, low, high⟩ := findDev_some found
  obtain ⟨e, mod, next, start, covered'⟩ := apart.next found covered (by omega)
  have other : e.start ≠ d.start := by
    have := d.proper
    omega
  have free : lock (fun _ => false) d = some (update (fun _ => false) d.start true) := lock_free
  have free' : ∀ e ∈ devs, d.last + 1 ≤ e.last → update (fun _ => false) d.start true e.start = false :=
    fun e there after => by
      rw [update_of_ne]
      intro same
      obtain rfl := @Apart.same _ _ _ d.start apart mem there ⟨le_rfl, d.proper⟩
        ⟨by omega, by have := e.proper; omega⟩
      omega
  obtain ⟨held', later, isHeld, _⟩ := mutexLock_covered apart next covered' free' (lt_succ_self _)
  have locks : cygFlashMutexLock devs (len - (d.last + 1 - base) + 2) (fun _ => false) base len = some
    (cygFlashErrOk, held') := by
    rw [cygFlashMutexLock, found]
    simp only [free, Option.bind_eq_bind, Option.bind_some, d.room_eq low high, if_pos
      (show len > d.last + 1 - base by omega), mod]
    rw [later]
    simp
  obtain ⟨fuel', unlocks⟩ := inverse.pair _ _ _ locks
  have waits : lock (unlock held' d) e = none := by
    rw [lock, if_pos]
    rw [unlock, update_of_ne other, isHeld]
  rw [cygFlashMutexUnlock, found] at unlocks
  simp only [d.room_eq low high, if_pos (show len > d.last + 1 - base by omega), mod] at unlocks
  cases fuel' with
  | zero => simp [cygFlashMutexLock] at unlocks
  | succ fuel' =>
    rw [cygFlashMutexLock, next] at unlocks
    simp [waits] at unlocks

end Ecos.Flash.Errors
