import Ecos.Serial.Fifo

namespace Ecos.Serial
open List hiding getElem?_eq_some_iff
open Channel

/-- The water marks of the input buffer in `serial_init`, for the two percentages of the configuration. -/
def Cbuf.setWater (b : Cbuf) (low high : Nat) : Cbuf :=
  let lowWater := low * b.len / 100
  let highWater := high * b.len / 100
  -- but make sure it is at least 35 below buffer size
  let highWater := if b.len - highWater < 35 then b.len - 35 else highWater
  -- and just in case
  let highWater := if highWater ≤ 0 then 1 else highWater
  { b with lowWater := if highWater < lowWater then highWater else lowWater, highWater }

def Wire.flow? : Wire → Option UInt8
  | .data _ => none
  | .flow c => some c

/-- First `xoff`, then in turn `xon` and `xoff`. -/
def Alternates (xoff xon : UInt8) (l : List UInt8) : Prop :=
  ∀ i c, l[i]? = some c → c = if i % 2 = 0 then xoff else xon

namespace Alternates
variable {xoff xon c : UInt8} {l m : List UInt8}

theorem left (turns : Alternates xoff xon (l ++ m)) : Alternates xoff xon l := by
  intro i c at'
  have less := (getElem?_eq_some_iff.mp at').1
  exact turns i c (by rwa [getElem?_append_left less])

theorem snoc (turns : Alternates xoff xon l) (next : c = if l.length % 2 = 0 then xoff else xon) :
    Alternates xoff xon (l ++ [c]) := by
  intro i d at'
  by_cases less : i < l.length
  · rw [getElem?_append_left less] at at'
    exact turns i d at'
  · have bound := (getElem?_eq_some_iff.mp at').1
    have same : i = l.length := by
      rw [length_append, length_singleton] at bound
      omega
    subst same
    rw [getElem?_concat_length] at at'
    cases at'
    exact next

/-- The last one tells how many there are. -/
theorem last (turns : Alternates xoff xon l) (distinct : xon ≠ xoff) : l.getLast? = some xoff ↔ l.length % 2 = 1 := by
  rw [getLast?_eq_getElem?]
  cases eq : l[l.length - 1]? with
  | none =>
    have short := getElem?_eq_none_iff.mp eq
    have zero : l.length = 0 := by omega
    simp [zero]
  | some c =>
    have less := (getElem?_eq_some_iff.mp eq).1
    have value := turns _ c eq
    by_cases odd : l.length % 2 = 1
    · rw [value, if_pos (by omega)]
      simp [odd]
    · rw [value, if_neg (by omega)]
      simp [odd, distinct]

end Alternates

/-- What the flow control of the input depends on. `sent` are its characters that the driver has taken. -/
structure Gate where
  nb : Nat
  highWater : Nat
  throttled : Bool
  xonxoffRx : Bool
  xchar : UInt8
  xon : UInt8
  xoff : UInt8
  sent : List UInt8

namespace Gate
variable (g : Gate)

/-- The characters sent, and the one that waits to be sent. -/
def control : List UInt8 := if g.xchar = 0 then g.sent else g.sent ++ [g.xchar]

/-- The other side is told to stop while the buffer fills up, and only then. -/
structure Regular : Prop where
  filled : g.throttled = true → 0 < g.nb
  alternate : Alternates g.xoff g.xon g.sent
  last : g.control.getLast? = some g.xoff ↔ g.throttled = true ∧ g.xonxoffRx = true
  stopped : g.sent.getLast? = some g.xoff → g.xonxoffRx = true ∧ (g.throttled = true ∨ g.xchar = g.xon)

/-- `throttle_rx` and `restart_rx` may overwrite what waits to be sent. -/
def ThrottleFits : Prop := g.throttled = false → g.xonxoffRx = true → g.xchar ≠ g.xon

def RestartFits : Prop := g.throttled = true → g.xonxoffRx = true → g.xchar ≠ g.xoff

/-- How many characters have been sent, or wait, tells whether the other side has to stop. -/
structure Inv : Prop where
  chars : g.xon ≠ 0 ∧ g.xoff ≠ 0 ∧ g.xon ≠ g.xoff
  water : 0 < g.highWater
  filled : g.throttled = true → 0 < g.nb
  turns : Alternates g.xoff g.xon g.control
  odd : g.control.length % 2 = 1 ↔ g.throttled = true ∧ g.xonxoffRx = true
  obliged : g.xchar ≠ 0 → g.xonxoffRx = true

def throttle : Gate := { g with throttled := true, xchar := if g.xonxoffRx ∧ ¬ g.throttled then g.xoff else g.xchar }

def restart : Gate := { g with throttled := false, xchar := if g.xonxoffRx ∧ g.throttled then g.xon else g.xchar }

def send : Gate := { g with xchar := 0, sent := g.sent ++ [g.xchar] }

variable {g}

namespace Inv
variable (inv : g.Inv)
include inv

/-- What waits is what the state of the gate asks for. -/
theorem slot (waits : g.xchar ≠ 0) : g.xchar = if g.throttled then g.xoff else g.xon := by
  have rx := inv.obliged waits
  have odd := inv.odd
  have turns := inv.turns g.sent.length g.xchar
  rw [control, if_neg waits, length_append, length_singleton] at odd
  rw [control, if_neg waits] at turns
  rw [turns getElem?_concat_length]
  by_cases throttled : g.throttled = true
  · have even : g.sent.length % 2 = 0 := by
      have := odd.mpr ⟨throttled, rx⟩
      omega
    rw [if_pos even, if_pos throttled]
  · have even : ¬ g.sent.length % 2 = 0 := fun even => throttled (odd.mp (by omega)).1
    rw [if_neg even, if_neg throttled]

theorem nb {n : Nat} (filled : g.throttled = true → 0 < n) : Inv { g with nb := n } := { inv with filled }

theorem regular : g.Regular := by
  have distinct := inv.chars.2.2
  have sent : Alternates g.xoff g.xon g.sent := by
    have turns := inv.turns
    unfold control at turns
    split at turns
    · exact turns
    · exact turns.left
  refine ⟨inv.filled, sent, (inv.turns.last distinct).trans inv.odd, fun stopped => ?_⟩
  have odd := (sent.last distinct).mp stopped
  have whole := inv.odd
  by_cases waits : g.xchar = 0
  · rw [control, if_pos waits] at whole
    obtain ⟨throttled, rx⟩ := whole.mp odd
    exact ⟨rx, .inl throttled⟩
  · refine ⟨inv.obliged waits, .inr ?_⟩
    have turns := inv.turns g.sent.length g.xchar
    rw [control, if_neg waits] at turns
    rw [turns getElem?_concat_length, if_neg (by omega)]

/-- The character for the new state takes the empty slot. -/
theorem turn {t : Bool} (rx : g.xonxoffRx = true) (flips : g.throttled = !t) (fits : g.xchar ≠ if t then g.xon else g.xoff)
    (filled : t = true → 0 < g.nb) : Inv { g with throttled := t, xchar := if t then g.xoff else g.xon } := by
  obtain ⟨xon, xoff, -⟩ := inv.chars
  have none : g.xchar = 0 := by
    by_contra waits
    refine fits ((inv.slot waits).trans ?_)
    cases t <;> rw [flips] <;> rfl
  have odd := inv.odd
  have turns := inv.turns
  rw [control, if_pos none] at odd turns
  have after : control { g with throttled := t, xchar := if t then g.xoff else g.xon } =
      g.sent ++ [if t then g.xoff else g.xon] := if_neg (by cases t <;> assumption)
  rw [flips] at odd
  refine ⟨inv.chars, inv.water, filled, ?_, ?_, fun _ => rx⟩ <;> rw [after]
  · refine turns.snoc ?_
    cases t with
    | false => exact (if_neg (by simp [odd.mpr ⟨rfl, rx⟩])).symm
    | true => exact (if_pos (by simpa using odd)).symm
  · rw [length_append, length_singleton]
    cases t with
    | false => exact iff_of_false (by have := odd.mpr ⟨rfl, rx⟩; omega) nofun
    | true => exact iff_of_true (by have : ¬ _ := fun one => absurd (odd.mp one).1 nofun; omega) ⟨rfl, rx⟩

theorem throttle (fits : g.ThrottleFits) (filled : 0 < g.nb) : g.throttle.Inv := by
  by_cases tells : g.xonxoffRx = true ∧ ¬ g.throttled = true
  · rw [Gate.throttle, if_pos tells]
    have calm := Bool.eq_false_iff.mpr tells.2
    exact inv.turn (t := true) tells.1 calm (fits calm tells.1) fun _ => filled
  · rw [Gate.throttle, if_neg tells]
    refine { inv with filled := fun _ => filled, odd := inv.odd.trans ?_ }
    exact and_congr_left fun rx => iff_of_true (by_contra fun calm => tells ⟨rx, calm⟩) rfl

theorem restart (fits : g.RestartFits) : g.restart.Inv := by
  by_cases tells : g.xonxoffRx = true ∧ g.throttled = true
  · rw [Gate.restart, if_pos tells]
    exact inv.turn (t := false) tells.1 tells.2 (fits tells.2 tells.1) nofun
  · rw [Gate.restart, if_neg tells]
    exact { inv with filled := nofun, odd := inv.odd.trans (iff_of_false (fun both => tells both.symm) nofun) }

theorem send (waits : g.xchar ≠ 0) : g.send.Inv := by
  have same : g.send.control = g.control := by
    rw [control, control, if_neg waits]
    exact if_pos rfl
  exact ⟨inv.chars, inv.water, inv.filled, same ▸ inv.turns, same ▸ inv.odd, fun none => absurd rfl none⟩

theorem method {rx : Bool} (calm : rx = g.xonxoffRx ∨ g.throttled = false ∧ g.xchar = 0) :
    Inv { g with xonxoffRx := rx } := by
  obtain rfl | ⟨open', none⟩ := calm
  · exact inv
  · exact { inv with
      odd := inv.odd.trans (by simp [open'])
      obliged := fun waits => absurd none waits }

end Inv

end Gate

namespace Channel
variable {T : Type*} [DecidableEq T] (ch : Channel T) (t : T)

def gate : Gate := ⟨ch.inp.nb, ch.inp.highWater, ch.flow.inThrottled, ch.flow.xonxoffRx, ch.flow.xchar, ch.flow.xon,
  ch.flow.xoff, ch.wire.filterMap Wire.flow?⟩

/-- No throttling is forced, and the output, where the characters sent can be seen, is not flushed. -/
def Listed : Act T → Prop
  | .forceRx _ => False
  | .go t => ch.thread t ≠ .enter .outputFlush
  | _ => True

/-- No step reads the last byte of a throttled buffer whose low water mark is 0, asks for a character while the other
waits, or changes the method of a gate that is shut or about to be opened. -/
def Fine : Act T → Prop
  | .go t => match ch.thread t with
    | .enter .inputFlush => ch.gate.RestartFits
    | .reading len got => got.length < len → 0 < ch.inp.nb →
      (ch.flow.inThrottled = true → ch.inp.lowWater = 0 → ch.inp.nb ≠ 1) ∧
        (ch.inp.nb ≤ ch.inp.lowWater → ch.gate.RestartFits)
    | _ => True
  | .rcvChar c => ¬ (ch.flow.xonxoffTx = true ∧ (c = ch.flow.xoff ∨ c = ch.flow.xon)) →
    ch.inp.highWater ≤ ch.inp.nb → ch.gate.ThrottleFits
  | .rcvDone _ count => ch.inp.highWater ≤ ch.inp.nb + count → ch.gate.ThrottleFits
  | .setFlow rx _ => rx = ch.flow.xonxoffRx ∨ ch.flow.inThrottled = false ∧ ch.flow.xchar = 0
  | _ => True

/-- After `serial_init`, for percentages that the configuration admits. -/
structure Configured : Prop where
  start : ch.Start
  water : ∃ low high, 1 ≤ low ∧ low ≤ high ∧ high ≤ 100 ∧ ch.inp = ch.inp.setWater low high
  calm : ch.flow.inThrottled = false ∧ ch.flow.xchar = 0

variable {ch t}

@[simp] theorem gate_signalIn : ch.signalIn.gate = ch.gate := by
  unfold signalIn
  split <;> rfl

@[simp] theorem gate_signalOut : ch.signalOut.gate = ch.gate := by
  unfold signalOut
  split <;> rfl

@[simp] theorem gate_announceRoom : ch.announceRoom.gate = ch.gate := gate_signalOut

theorem gate_sendOne : ch.sendOne.gate = ch.gate := by simp [gate, sendOne, Wire.flow?]

theorem gate_sendLoop {room : Nat} : (sendLoop room ch).gate = ch.gate := by
  induction room generalizing ch with
  | zero =>
    unfold sendLoop
    repeat' split
    all_goals simp
  | succ room ih =>
    unfold sendLoop
    split
    · exact ih.trans gate_sendOne
    · simp

theorem gate_xmtDone {count : Nat} : (ch.xmtDone count).gate = ch.gate := by
  have sent : ∀ l : List UInt8, (ch.wire ++ l.map Wire.data).filterMap Wire.flow? = ch.wire.filterMap Wire.flow? := by
    simp [filterMap_map, Function.comp_def, Wire.flow?]
  unfold xmtDone
  dsimp only
  split
  · exact (gate_announceRoom).trans (congrArg (fun l => { ch.gate with sent := l }) (sent _))
  · exact congrArg (fun l => { ch.gate with sent := l }) (sent _)

theorem gate_throttleRx : (ch.throttleRx false).gate = ch.gate.throttle := by simp [gate, throttleRx, Gate.throttle]

theorem gate_restartRx : (ch.restartRx false).gate = ch.gate.restart := by
  simp only [gate, restartRx, Gate.restart, Bool.false_eq_true, false_or]
  rfl

theorem gate_checkHighWater :
    ch.checkHighWater.gate = if ch.inp.highWater ≤ ch.inp.nb then ch.gate.throttle else ch.gate := by
  unfold checkHighWater
  split
  · exact gate_throttleRx
  · rfl

section
variable (inv : ch.gate.Inv)
include inv

theorem inv_checkHighWater (fits : ch.inp.highWater ≤ ch.inp.nb → ch.gate.ThrottleFits) : ch.checkHighWater.gate.Inv := by
  rw [gate_checkHighWater]
  split
  · rename_i high
    exact inv.throttle (fits high) (inv.water.trans_le high)
  · exact inv

theorem inv_xmtChar {first : Bool} {room : Nat} : (ch.xmtChar first room).gate.Inv := by
  have data : ∀ ch : Channel T, ch.gate.Inv → (ch.xmtData room).gate.Inv := by
    intro ch inv
    unfold xmtData
    split
    · exact inv
    · rwa [gate_sendLoop]
  unfold xmtChar
  split
  · rename_i waits
    split
    · refine data _ ?_
      have sent := inv.send waits.2
      simpa [gate, Gate.send, Wire.flow?] using sent
    · exact inv
  · exact data _ inv

theorem inv_rcvData {c : UInt8} (fits : ch.inp.highWater ≤ ch.inp.nb → ch.gate.ThrottleFits) :
    (ch.rcvData c).gate.Inv := by
  have first : ch.checkHighWater.announceFirst.gate = ch.checkHighWater.gate := by
    unfold announceFirst
    split <;> rfl
  have kept := first ▸ inv_checkHighWater inv fits
  rw [rcvData, gate_signalIn, keep]
  split
  · exact kept.nb fun _ => Nat.succ_pos _
  · exact kept

theorem inv_rcvDone {bytes : List UInt8} {count : Nat}
    (fits : ch.inp.highWater ≤ ch.inp.nb + count → ch.gate.ThrottleFits) : (ch.rcvDone bytes count).gate.Inv := by
  have woken : ∀ ch : Channel T, gate (if count = ch.inp.nb then { ch with inp := ch.inp.selwakeup } else ch) = ch.gate := by
    intro ch
    split <;> rfl
  have received : ∀ ch' : Channel T, ch'.gate = { ch.gate with nb := ch.inp.nb + count } → ch'.checkHighWater.gate.Inv := by
    intro ch' same
    refine inv_checkHighWater ?_ ?_
    · rw [same]
      exact inv.nb fun throttled => Nat.add_pos_left (inv.filled throttled) _
    · rw [same]
      have nb := congrArg Gate.nb same
      have water := congrArg Gate.highWater same
      change ch'.inp.nb = _ at nb
      change ch'.inp.highWater = ch.inp.highWater at water
      rwa [nb, water]
  refine (woken _).symm ▸ received _ gate_signalIn

theorem inv_inputFlush (fits : ch.gate.RestartFits) : ch.inputFlush.gate.Inv := by
  have abort : ch.abortIn.gate = ch.gate := by
    unfold abortIn
    split
    · exact gate_signalIn
    · rfl
  have dropped : ch.abortIn.dropIn.gate = { ch.gate with nb := 0 } := congrArg (fun g : Gate => { g with nb := 0 }) abort
  unfold inputFlush
  dsimp only
  split
  · rw [gate_restartRx, dropped]
    exact (inv.restart fits).nb nofun
  · rename_i calm
    have open' : ch.abortIn.dropIn.gate.throttled ≠ true := calm
    rw [dropped] at open' ⊢
    exact inv.nb fun throttled => absurd throttled open'

theorem inv_takeOne (filled : 0 < ch.inp.nb) (last : ch.flow.inThrottled = true → ch.inp.lowWater = 0 → ch.inp.nb ≠ 1)
    (fits : ch.inp.nb ≤ ch.inp.lowWater → ch.gate.RestartFits) : ch.takeOne.gate.Inv := by
  unfold takeOne
  split
  · rename_i low
    have restarted := inv.restart (fits low.1)
    rw [← gate_restartRx] at restarted
    exact restarted.nb nofun
  · rename_i high
    refine inv.nb fun throttled => ?_
    change 0 < ch.inp.nb - 1
    have some := last throttled
    have above : ¬ ch.inp.nb ≤ ch.inp.lowWater := fun low => high ⟨low, throttled⟩
    omega

theorem inv_advance (listed : ch.Listed (.go t)) (fine : ch.Fine (.go t)) : (ch.advance t).gate.Inv := by
  simp only [Listed, Fine] at listed fine
  unfold advance
  cases at' : ch.thread t with
  | enter call =>
    rw [at'] at listed fine
    cases call with
    | inputFlush => exact inv_inputFlush inv fine
    | outputFlush => exact absurd rfl listed
    | selectRead =>
      change (gate ch.selectRead).Inv
      unfold selectRead
      split <;> exact inv
    | selectWrite =>
      change (gate ch.selectWrite).Inv
      unfold selectWrite
      split <;> exact inv
    | write bytes => exact inv
    | read len => exact inv
    | drain => exact inv
  | reading len got =>
    rw [at'] at fine
    dsimp only
    unfold reading
    split
    · rename_i less
      split
      · rename_i filled
        obtain ⟨last, fits⟩ := fine less filled
        exact inv_takeOne inv filled last fits
      · split <;> exact inv
    · exact inv
  | writing rest len =>
    cases rest with
    | nil => exact inv
    | cons c rest =>
      dsimp only [writing]
      split <;> exact inv
  | full rest len =>
    dsimp only [full, writeChecked]
    repeat' split
    all_goals exact inv
  | writeWoken rest len ok =>
    dsimp only [writeWoken, writeChecked]
    split <;> exact inv
  | readWoken len got ok =>
    dsimp only [readWoken]
    split <;> exact inv
  | draining err =>
    dsimp only [draining]
    split <;> exact inv
  | drainWoken err ok => exact inv
  | user r => exact inv
  | writeAsleep rest len => exact inv
  | readAsleep len got => exact inv
  | drainAsleep err => exact inv

theorem inv_act {e : Act T} (listed : ch.Listed e) (fine : ch.Fine e) : (ch.act e).gate.Inv := by
  cases e with
  | go t => exact inv_advance inv listed fine
  | xmtChar first room => exact inv_xmtChar inv
  | rcvChar c =>
    change (gate (ch.rcvChar c)).Inv
    unfold rcvChar
    split
    · rename_i tx
      split
      · exact inv
      · split
        · unfold restartTx
          split <;> exact inv
        · rename_i off on
          exact inv_rcvData inv (fine fun control => control.2.elim off on)
    · rename_i tx
      exact inv_rcvData inv (fine fun control => tx control.1)
  | rcvReq avail =>
    change (gate (ch.rcvReq avail)).Inv
    unfold rcvReq Ring.rewind
    repeat' split
    all_goals exact inv
  | rcvDone bytes count => exact inv_rcvDone inv fine
  | xmtReq space =>
    change (gate (ch.xmtReq space)).Inv
    unfold xmtReq
    repeat' split
    all_goals exact inv
  | xmtDone count =>
    change (gate (ch.xmtDone count)).Inv
    rwa [gate_xmtDone]
  | restartTx =>
    change (gate ch.restartTx).Inv
    unfold restartTx
    split <;> exact inv
  | setFlow rx tx => exact inv.method fine
  | forceRx throttle => exact listed.elim
  | call t call => exact inv
  | release t => exact inv
  | abort => exact inv
  | throttleTx => exact inv
  | setBlocking read write => exact inv

end

theorem Configured.inv (configured : ch.Configured)
    (chars : ch.flow.xon ≠ 0 ∧ ch.flow.xoff ≠ 0 ∧ ch.flow.xon ≠ ch.flow.xoff) : ch.gate.Inv := by
  obtain ⟨start, ⟨low, high, -, -, -, water⟩, calm, none⟩ := configured
  have positive : 0 < ch.inp.highWater := by
    rw [water]
    simp only [Cbuf.setWater]
    split_ifs <;> omega
  have nothing : ch.wire.filterMap Wire.flow? = [] := by rw [start.none.2.1, filterMap_nil]
  have control : ch.gate.control = [] := (if_pos none).trans nothing
  refine ⟨chars, positive, fun throttled => ?_, ?_, ?_, fun waits => absurd none waits⟩
  · exact absurd (calm.symm.trans throttled) nofun
  · rw [control]
    exact fun i c at' => by cases at'
  · rw [control]
    exact iff_of_false nofun fun both => absurd (calm.symm.trans both.1) nofun

/-- The runs in which nothing is forced, and those of them in which every step is fine. -/
def rxSystem (T : Type*) [DecidableEq T] : Machine (Channel T) :=
  .guided Configured (fun ch e => ch.Enabled e ∧ ch.Listed e) act

def fineSystem (T : Type*) [DecidableEq T] : Machine (Channel T) :=
  .guided (fun ch => ch.Configured ∧ ch.flow.xon ≠ 0 ∧ ch.flow.xoff ≠ 0 ∧ ch.flow.xon ≠ ch.flow.xoff)
    (fun ch e => ch.Enabled e ∧ ch.Listed e ∧ ch.Fine e) act

/-- While every step is fine, the other side is stopped and restarted in turn, and a gate that is shut gets opened. -/
theorem rx_regular (reach : (fineSystem T).Reach ch) : ch.gate.Regular := by
  have inv := reach.kept (P := fun ch => ch.gate.Inv) (fun _ start => start.1.inv start.2) fun _ _ inv taken =>
    inv_act inv taken.2.1 taken.2.2
  exact inv.regular

/-- An input buffer of `len` bytes with the default percentages. -/
def rxChannel (len : Nat) : Channel Unit :=
  { fresh Unit with
    inp := { freshCbuf with len }.setWater 33 66
    flow := ⟨false, false, true, false, 0, 17, 19⟩ }

theorem rxChannel_configured {len : Nat} (some : 0 < len) : (rxChannel len).Configured where
  start := ⟨freshCbuf_empty, ⟨some, rfl, rfl, rfl⟩, freshCbuf_water, ⟨rfl, rfl⟩, ⟨rfl, rfl⟩, ⟨rfl, rfl⟩, ⟨rfl, rfl⟩,
    fun _ => ⟨_, rfl⟩, rfl, rfl, rfl, rfl⟩
  water := ⟨33, 66, by decide, by decide, by decide, rfl⟩
  calm := ⟨rfl, rfl⟩

/-- Two bytes come in, and are read. -/
def twoIn : List (Act Unit) := [.rcvChar 1, .rcvChar 2]

def twoOut : List (Act Unit) := [.call () (.read 2), .go (), .go (), .go ()]

def twice : Channel Unit := foldl act (rxChannel 8) (twoIn ++ .xmtChar true 0 :: twoOut)

theorem rx_regular_twice : twice.gate.Regular ∧ twice.gate.control = [19, 17] := by
  refine ⟨rx_regular (Machine.Reach.run (.start ⟨rxChannel_configured (by decide), by decide⟩) ?_), by decide⟩
  refine ⟨⟨rfl, trivial, fun _ high => absurd high (by decide)⟩, ⟨rfl, trivial, fun _ _ _ _ => by decide⟩,
    ⟨rfl, trivial, trivial⟩, ⟨⟨_, rfl⟩, trivial, trivial⟩, ⟨rfl, nofun, trivial⟩, ?_, ?_, trivial⟩
  · exact ⟨trivial, nofun, fun _ _ => ⟨by decide, fun low => absurd low (by decide)⟩⟩
  · exact ⟨trivial, nofun, fun _ _ => ⟨by decide, fun _ _ _ => by decide⟩⟩

/-- The two bytes are read before the transmitter is called, from a buffer of two bytes and from one of eight; and the
method is changed while the buffer is throttled. -/
def wedged : Channel Unit := foldl act (rxChannel 2) (twoIn ++ twoOut)

def overtaken : Channel Unit := foldl act (rxChannel 8) (twoIn ++ twoOut.concat (.xmtChar true 0))

def stranded : Channel Unit := foldl act (rxChannel 8) [.rcvChar 1, .rcvChar 2, .xmtChar true 0, .setFlow false false]

theorem rx_irregular :
    ((rxSystem Unit).Reach wedged ∧ ¬ wedged.gate.Regular) ∧ ((rxSystem Unit).Reach overtaken ∧ ¬ overtaken.gate.Regular) ∧
    (rxSystem Unit).Reach stranded ∧ ¬ stranded.gate.Regular := by
  have started {len : Nat} (some : 0 < len) : (rxSystem Unit).Reach (rxChannel len) := .start (rxChannel_configured some)
  refine ⟨⟨(started (by decide)).run ?_, fun regular => absurd (regular.filled rfl) (by decide)⟩,
    ⟨(started (by decide)).run ?_, fun regular => absurd (regular.alternate 0 17 rfl) (by decide)⟩,
    (started (by decide)).run ?_, fun regular => absurd (regular.stopped rfl).1 nofun⟩
  · exact ⟨⟨rfl, trivial⟩, ⟨rfl, trivial⟩, ⟨⟨_, rfl⟩, trivial⟩, ⟨rfl, nofun⟩, ⟨trivial, nofun⟩, ⟨trivial, nofun⟩, trivial⟩
  · exact ⟨⟨rfl, trivial⟩, ⟨rfl, trivial⟩, ⟨⟨_, rfl⟩, trivial⟩, ⟨rfl, nofun⟩, ⟨trivial, nofun⟩, ⟨trivial, nofun⟩,
      ⟨rfl, trivial⟩, trivial⟩
  · exact ⟨⟨rfl, trivial⟩, ⟨rfl, trivial⟩, ⟨rfl, trivial⟩, ⟨trivial, trivial⟩, trivial⟩

end Channel

end Ecos.Serial
