import Ecos.Redboot.XyzModemBlocks

namespace Ecos.Redboot.Xyz
open List Option Xyz
variable {crc16 : List UInt8 → Nat} {parse : List UInt8 → Option Nat} {s s' t : Xyz} {line rest : Line} {stat : Stat}

instance (s : Xyz) : Decidable s.Fits := inferInstanceAs (Decidable (_ → _ ∧ _))

section Rounds
variable (crc16)

/-- In no round of the retry loop is there a block behind the announced length, and the last round does not end with a
duplicate of the block before. -/
def tame : Nat → Xyz → Line → Bool
  | 0, _, _ => true
  | k + 1, s, line =>
    (match s.getHdr crc16 line with
      | some (.ok, t, _) => decide ((t.blk = t.nextBlk → t.Fits) ∧ (k = 0 → t.blk ≠ t.nextBlk - 1))
      | _ => true) &&
    match s.attempt crc16 line with
      | some (.again _ t rest) => tame k t rest
      | _ => true

/-- The loop does not go on after an error, and `tame` holds in each of its rounds. -/
def tameRead : Nat → Xyz → Nat → Nat → Line → Bool
  | 0, _, _, _, _ => true
  | fuel + 1, s, size, total, line =>
    s.atEof || size == 0 ||
      s.len != -1 && (s.len != 0 || tame crc16 maxRetries s line) &&
        match s.body crc16 size total line with
        | some (.inr (t, size, total, rest)) => tameRead fuel t size total rest
        | _ => true

/-- The condition on a call of `xyzModem_stream_read`. -/
def Tame (fuel : Nat) (s : Xyz) (size : Nat) (line : Line) : Prop := tameRead crc16 fuel s size 0 line = true

end Rounds

theorem tame_hdr {k : Nat} (holds : tame crc16 (k + 1) s line = true) (got : s.getHdr crc16 line = some (.ok, t, rest)) :
    (t.blk = t.nextBlk → t.Fits) ∧ (k = 0 → t.blk ≠ t.nextBlk - 1) := by
  rw [tame, got, Bool.and_eq_true] at holds
  exact of_decide_eq_true holds.1

theorem tame_again {k : Nat} (holds : tame crc16 (k + 1) s line = true)
    (again : s.attempt crc16 line = some (.again stat t rest)) : tame crc16 k t rest = true := by
  rw [tame, again, Bool.and_eq_true] at holds
  exact holds.2

theorem tameRead_body {fuel size total : Nat} (holds : tameRead crc16 (fuel + 1) s size total line = true)
    (more : s.atEof = false) (asked : size ≠ 0) : s.len ≠ -1 ∧ (s.len = 0 → tame crc16 maxRetries s line = true) ∧
      ∀ t size' total' rest, s.body crc16 size total line = some (.inr (t, size', total', rest)) →
        tameRead crc16 fuel t size' total' rest = true := by
  have asked' : (size == 0) = false := by simpa using asked
  rw [tameRead, more, asked', Bool.false_or, Bool.false_or, Bool.and_eq_true, Bool.and_eq_true] at holds
  obtain ⟨⟨good, loop⟩, later⟩ := holds
  refine ⟨by simpa using good, fun empty => ?_, fun t size' total' rest round => ?_⟩
  · rw [empty] at loop
    simpa using loop
  · rw [round] at later
    exact later

/-- What a round may leave behind: a block to be copied from, or nothing new. -/
def Left (stat : Stat) (t : Xyz) : Prop :=
  (stat = .ok ∧ t.atEof = false ∧ t.Loaded) ∨ ((stat ≠ .ok ∨ t.atEof = true) ∧ t.Settled)

theorem attempt_cases {round : Attempt} (run : s.attempt crc16 line = some round) :
    ∃ stat t rest, s.getHdr crc16 line = some (stat, t, rest) ∧
      ((stat = .ok ∧ t.blk = t.nextBlk ∧ round = .done .ok t.accept rest) ∨
       (stat = .ok ∧ t.blk = t.nextBlk - 1 ∧ round = .again .ok (t.put ackChar) rest) ∨
       (∃ other, other ≠ .ok ∧ round = .again other t.nak rest) ∨
       (∃ other u rest', other ≠ .ok ∧ Frame t u ∧ round = .done other u rest') ∨
       ∃ other u rest', Frame t u ∧ round = .done other { u with atEof := true } rest') := by
  rw [attempt] at run
  obtain ⟨⟨stat, t, rest⟩, got, run⟩ := bind_eq_some_iff.mp run
  refine ⟨stat, t, rest, got, ?_⟩
  cases stat with
  | ok =>
    dsimp only at run
    split at run
    · next same => exact .inl ⟨rfl, same, (some.inj run).symm⟩
    split at run
    · next dup => exact .inr (.inl ⟨rfl, dup, (some.inj run).symm⟩)
    · exact .inr (.inr (.inl ⟨.sequence, by simp, (some.inj run).symm⟩))
  | cancel => exact .inr (.inr (.inr (.inl ⟨.cancel, t, rest, by simp, .rfl', (some.inj run).symm⟩)))
  | eof =>
    dsimp only at run
    refine .inr (.inr (.inr (.inr ?_)))
    split at run
    · obtain ⟨⟨stat', u, rest'⟩, last, same⟩ := map_eq_some_iff.mp run
      have frame : Frame t (u.put ackChar) := (((Frame.put _).trans .nak).trans (getHdr_frame last).1).trans (.put _)
      exact ⟨stat', u.put ackChar, rest', frame, same.symm⟩
    · exact ⟨.eof, t.put ackChar, rest, .put _, (some.inj run).symm⟩
  | timeout => exact .inr (.inr (.inl ⟨.timeout, by simp, (some.inj run).symm⟩))
  | frame => exact .inr (.inr (.inl ⟨.frame, by simp, (some.inj run).symm⟩))
  | cksum => exact .inr (.inr (.inl ⟨.cksum, by simp, (some.inj run).symm⟩))
  | sequence => exact .inr (.inr (.inl ⟨.sequence, by simp, (some.inj run).symm⟩))

theorem Settled.ended (settled : s.Settled) : Settled { s with atEof := true } := ⟨⟨settled.book.next,
  settled.book.numbered, settled.book.counted, settled.book.copied⟩, settled.bytes⟩

theorem Settled.attemptDone (settled : s.Settled) (more : s.atEof = false)
    (tame : ∀ t rest, s.getHdr crc16 line = some (.ok, t, rest) → t.blk = t.nextBlk → t.Fits)
    (run : s.attempt crc16 line = some (.done stat t rest)) : Left stat t ∧ t.out = s.out := by
  obtain ⟨stat', u, rest', got, cases⟩ := attempt_cases run
  obtain ⟨frame, whole⟩ := getHdr_frame got
  rcases cases with ⟨rfl, same, is⟩ | ⟨_, _, is⟩ | ⟨_, _, is⟩ | ⟨other, v, _, bad, frame', is⟩ | ⟨other, v, _, frame', is⟩
  · obtain ⟨rfl, rfl, rfl⟩ := Attempt.done.inj is
    refine ⟨.inl ⟨rfl, ?_, ?_⟩, accept_frame.2.trans frame.out⟩
    · rw [accept_frame.1, frame.atEof, more]
    · exact (settled.frame frame).accept (whole rfl) same (tame _ _ got same)
  · exact absurd is (by simp)
  · exact absurd is (by simp)
  · obtain ⟨rfl, rfl, rfl⟩ := Attempt.done.inj is
    exact ⟨.inr ⟨.inl bad, settled.frame (frame.trans frame')⟩, (frame.trans frame').out⟩
  · obtain ⟨rfl, rfl, rfl⟩ := Attempt.done.inj is
    exact ⟨.inr ⟨.inr rfl, (settled.frame (frame.trans frame')).ended⟩, (frame.trans frame').out⟩

theorem Settled.attemptAgain (settled : s.Settled) (more : s.atEof = false)
    (run : s.attempt crc16 line = some (.again stat t rest)) : t.Settled ∧ t.atEof = false ∧ t.out = s.out ∧
      (stat = .ok → ∃ u, s.getHdr crc16 line = some (.ok, u, rest) ∧ u.blk = u.nextBlk - 1) := by
  obtain ⟨stat', u, rest', got, cases⟩ := attempt_cases run
  have frame := (getHdr_frame got).1
  rcases cases with ⟨_, _, is⟩ | ⟨rfl, dup, is⟩ | ⟨other, bad, is⟩ | ⟨_, _, _, _, _, is⟩ | ⟨_, _, _, _, is⟩
  · exact absurd is (by simp)
  · obtain ⟨rfl, rfl, rfl⟩ := Attempt.again.inj is
    have frame' := frame.trans (.put ackChar)
    exact ⟨settled.frame frame', frame'.atEof.trans more, frame'.out, fun _ => ⟨u, got, dup⟩⟩
  · obtain ⟨rfl, rfl, rfl⟩ := Attempt.again.inj is
    have frame' := frame.trans .nak
    exact ⟨settled.frame frame', frame'.atEof.trans more, frame'.out, fun ok => absurd ok bad⟩
  · exact absurd is (by simp)
  · exact absurd is (by simp)

theorem Settled.retry {n : Nat} {stat' : Stat} (settled : s.Settled) (more : s.atEof = false) (holds : tame crc16 n s line = true)
    (failed : n = 0 → stat ≠ .ok) (run : s.retry crc16 n stat line = some (stat', t, rest)) :
    Left stat' t ∧ t.out = s.out := by
  induction n generalizing s stat line with
  | zero =>
    obtain ⟨rfl, rfl, _⟩ : stat = stat' ∧ s = t ∧ _ := by simpa [retry] using run
    exact ⟨.inr ⟨.inl (failed rfl), settled⟩, rfl⟩
  | succ k ih =>
    rw [retry] at run
    split at run
    · simp at run
    · next done =>
      obtain ⟨rfl, rfl, _⟩ : _ = stat' ∧ _ = t ∧ _ := by simpa using run
      exact settled.attemptDone more (fun u rest' got => (tame_hdr holds got).1) done
    · next again =>
      obtain ⟨settled', more', out, duplicate⟩ := settled.attemptAgain more again
      have later := ih settled' more' (tame_again holds again) (fun last ok => ?_) run
      · exact ⟨later.1, later.2.trans out⟩
      · obtain ⟨u, got, dup⟩ := duplicate ok
        exact (tame_hdr holds got).2 last dup

/-- The state between two calls. -/
structure Inv (s : Xyz) : Prop where
  book : s.Book
  bytes : s.out ++ s.pending = s.expected
  room : s.atEof = false → s.len = -1 ∨ s.len = 0 ∨ 0 < s.len ∧ s.bufp + s.len ≤ 1024

theorem pending_ended (ended : s.atEof = true) : s.pending = [] := if_pos ended

theorem pending_more (more : s.atEof = false) : s.pending = window s.pkt s.bufp s.len.toNat := by
  rw [pending, more]
  rfl

theorem pending_empty (low : s.len ≤ 0) : s.pending = [] := by
  rw [pending, Int.toNat_of_nonpos low]
  split <;> rfl

theorem Settled.inv (settled : s.Settled) (nothing : s.pending = []) (room : s.atEof = true ∨ s.len = -1) : s.Inv where
  book := settled.book
  bytes := by rw [nothing, append_nil, settled.bytes]
  room more := by
    rcases room with ended | room
    · rw [ended] at more
      exact absurd more (by decide)
    · exact .inl room

theorem Inv.settled (inv : s.Inv) (empty : s.len = 0) : s.Settled where
  book := inv.book
  bytes := by
    have bytes := inv.bytes
    rwa [pending_empty (by omega), append_nil] at bytes

theorem Inv.loaded (inv : s.Inv) (more : s.atEof = false) (good : s.len ≠ -1) (some : s.len ≠ 0) : s.Loaded := by
  have room := inv.room more
  refine ⟨inv.book, ?_, by omega, by omega⟩
  rw [← pending_more more]
  exact inv.bytes

theorem Loaded.copy {len : Int} (loaded : s.Loaded) (more : s.atEof = false) (low : 0 ≤ len) (high : len ≤ s.len) :
    (s.copy len).Inv := by
  obtain ⟨⟨next, numbered, counted, copied⟩, bytes, positive, inside⟩ := loaded
  refine ⟨⟨next, numbered, counted, ?_⟩, ?_, fun _ => ?_⟩
  · intro c mem
    rcases mem_append.mp mem with before | new
    · exact copied c before
    · obtain rfl := mem_singleton.mp new
      omega
  · have split : s.len.toNat = len.toNat + (s.len - len).toNat := by omega
    rw [split, window_append, ← append_assoc] at bytes
    rw [pending_more (s := s.copy len) more]
    exact bytes
  · rw [Xyz.copy]
    dsimp only
    omega

theorem Inv.body {size total : Nat} {round : (Result × Xyz × Line) ⊕ (Xyz × Nat × Nat × Line)} (inv : s.Inv)
    (more : s.atEof = false) (good : s.len ≠ -1) (holds : s.len = 0 → tame crc16 maxRetries s line = true)
    (run : s.body crc16 size total line = some round) :
    (∃ err t rest, round = .inl (.returned total err, t, rest) ∧ t.Inv ∧ t.out = s.out) ∨
      ∃ t size' bytes rest, round = .inr (t, size', total + bytes.length, rest) ∧ t.Inv ∧ t.out = s.out ++ bytes := by
  rw [Xyz.body] at run
  obtain ⟨⟨stat, t, rest⟩, filled, round⟩ := map_eq_some_iff.mp run
  obtain ⟨left, out⟩ : Left stat t ∧ t.out = s.out := by
    split at filled
    · next empty => exact (inv.settled empty).retry more (holds empty) (by simp [maxRetries]) filled
    · next some =>
      obtain ⟨rfl, rfl, _⟩ : _ = stat ∧ s = t ∧ _ := by simpa using filled
      exact ⟨.inl ⟨rfl, more, inv.loaded more good some⟩, rfl⟩
  subst round
  dsimp only
  rcases left with ⟨rfl, more', loaded⟩ | ⟨finished, settled⟩
  · right
    rw [if_neg (by simp), if_neg (by simp [more'])]
    obtain ⟨low, high⟩ : 0 ≤ (if (size : Int) < t.len then (size : Int) else t.len) ∧
        (if (size : Int) < t.len then (size : Int) else t.len) ≤ t.len := by
      have := loaded.low
      split <;> omega
    revert low high
    generalize (if (size : Int) < t.len then (size : Int) else t.len) = len
    intro low high
    have copied : (t.copy len).out = s.out ++ window t.pkt t.bufp len.toNat := by
      rw [← out]
      rfl
    rw [if_neg (by omega)]
    exact ⟨_, size - len.toNat, _, rest, by rw [window_length], loaded.copy more' low high, copied⟩
  · by_cases ok : stat = .ok
    · right
      have ended : t.atEof = true := finished.resolve_left (fun bad => bad ok)
      rw [if_neg (by simpa using ok), if_pos ended]
      exact ⟨t, size, [], rest, rfl, settled.inv (pending_ended ended) (.inl ended), by rw [out, append_nil]⟩
    · left
      rw [if_pos ok]
      have failed : Settled { t with len := -1 } := ⟨⟨settled.book.next, settled.book.numbered, settled.book.counted,
        settled.book.copied⟩, settled.bytes⟩
      exact ⟨_, _, rest, rfl, failed.inv (pending_empty (by simp)) (.inr rfl), out⟩

theorem Inv.streamRead {fuel size total : Nat} {result : Result} (inv : s.Inv) (holds : tameRead crc16 fuel s size total line = true)
    (run : s.streamRead crc16 fuel size total line = some (result, t, rest)) :
    t.Inv ∧ ∃ err bytes, result = .returned (total + bytes.length) err ∧ t.out = s.out ++ bytes := by
  induction fuel generalizing s size total line with
  | zero => simp [streamRead] at run
  | succ fuel ih =>
    rw [streamRead] at run
    split at run
    · obtain ⟨rfl, rfl, _⟩ : _ = result ∧ s = t ∧ _ := by simpa using run
      exact ⟨inv, none, [], rfl, (append_nil _).symm⟩
    · next going =>
      rw [not_or, Bool.not_eq_true] at going
      obtain ⟨more, some⟩ := going
      obtain ⟨good, rounds, later⟩ := tameRead_body holds more some
      split at run
      · simp at run
      · next round =>
        rcases inv.body more good rounds round with ⟨err, u, rest', is, inv', out⟩ | ⟨_, _, _, _, is, _⟩
        · obtain rfl := Sum.inl.inj is
          obtain ⟨rfl, rfl, _⟩ : _ = result ∧ u = t ∧ _ := by simpa using run
          exact ⟨inv', err, [], rfl, by rw [out, append_nil]⟩
        · exact absurd is (by simp)
      · next round =>
        rcases inv.body more good rounds round with ⟨_, _, _, is, _⟩ | ⟨u, size', bytes, rest', is, inv', out⟩
        · exact absurd is (by simp)
        · obtain ⟨rfl, rfl, rfl, rfl⟩ : _ = u ∧ _ = size' ∧ _ = total + bytes.length ∧ _ = rest' := by simpa using is
          obtain ⟨inv'', err, bytes', rfl, out'⟩ := ih inv' (later _ _ _ _ round) run
          refine ⟨inv'', err, bytes ++ bytes', ?_, ?_⟩
          · rw [length_append, Nat.add_assoc]
          · rw [out', out, append_assoc]

/-- Nothing has been received yet. -/
structure Fresh (s : Xyz) : Prop where
  atEof : s.atEof = false
  readLength : s.readLength = 0
  blocks : s.blocks = []
  out : s.out = []
  copies : s.copies = []

theorem Fresh.frame (fresh : s.Fresh) (frame : Frame s t) : t.Fresh where
  atEof := frame.atEof.trans fresh.atEof
  readLength := frame.readLength.trans fresh.readLength
  blocks := frame.blocks.trans fresh.blocks
  out := frame.out.trans fresh.out
  copies := frame.copies.trans fresh.copies

theorem Fresh.openLoop {retries crcRetries : Nat} (fresh : s.Fresh)
    (run : openLoop crc16 parse retries s crcRetries line = some (some t, rest)) :
    t.Fresh ∧ t.nextBlk = 1 ∧ t.len = 0 := by
  induction retries generalizing s crcRetries line with
  | zero => simp [openLoop] at run
  | succ retries ih =>
    rw [openLoop] at run
    split at run
    · simp at run
    · next u _ got =>
      have fresh' := fresh.frame (getHdr_frame got).1
      split at run
      · obtain ⟨p, _, same⟩ := map_eq_some_iff.mp run
        obtain ⟨rfl, _⟩ : _ = t ∧ _ := by simpa using same
        exact ⟨⟨fresh'.atEof, fresh'.readLength, fresh'.blocks, fresh'.out, fresh'.copies⟩, rfl, rfl⟩
      · obtain ⟨rfl, _⟩ : _ = t ∧ _ := by simpa using run
        exact ⟨⟨fresh'.atEof, fresh'.readLength, fresh'.blocks, fresh'.out, fresh'.copies⟩, rfl, rfl⟩
    · next u _ got =>
      have fresh' := fresh.frame (getHdr_frame got).1
      refine ih (Fresh.frame ?_ .nak) run
      exact ⟨fresh'.atEof, fresh'.readLength, fresh'.blocks, fresh'.out, fresh'.copies⟩
    · simp at run
    · next got => exact ih (fresh.frame (getHdr_frame got).1) run

theorem Fresh.inv (fresh : s.Fresh) (first : s.nextBlk = 1) (empty : s.len = 0) : s.Inv := by
  obtain ⟨_, readLength, blocks, out, copies⟩ := fresh
  refine ⟨⟨?_, ?_, fun _ => ?_, ?_⟩, ?_, fun _ => .inr (.inl empty)⟩
  · rw [first, blocks]
    rfl
  · simp [blocks]
  · rw [readLength, blocks]
    rfl
  · simp [copies]
  · rw [pending_empty (by omega), out, expected, blocks]
    simp

theorem Inv.opened {before : Xyz} {ymodem : Bool}
    (run : streamOpen crc16 parse before ymodem line = some (some s, rest)) : s.Inv := by
  rw [streamOpen] at run
  split at run
  · obtain ⟨fresh, first, empty⟩ := Fresh.openLoop (Fresh.frame (by exact ⟨rfl, rfl, rfl, rfl, rfl⟩) .nak) run
    exact fresh.inv first empty
  · obtain ⟨rfl, _⟩ : _ = s ∧ _ := by simpa using run
    exact Fresh.inv ⟨rfl, rfl, rfl, rfl, rfl⟩ rfl rfl

/-- In every run of reads that stays within the announced length, does not spend all its rounds on duplicates and is not
continued after an error: the bytes copied and those still in the buffer are the data of the accepted blocks, which are
numbered from one on, and each `memcpy` stays within the packet. -/
theorem xyz_delivers (reach : (machine crc16 parse (Tame crc16)).Reach s) :
    s.out ++ s.pending = s.expected ∧ (∀ i b, s.blocks[i]? = some b → b.1 = UInt8.ofNat (i + 1)) ∧
      (∀ c ∈ s.copies, 0 ≤ c.2 ∧ c.2 ≤ 1024 ∧ c.1 + c.2 ≤ 1024) ∧
      ∀ fuel size line result t rest, Tame crc16 fuel s size line →
        s.streamRead crc16 fuel size 0 line = some (result, t, rest) →
        ∃ err bytes, result = .returned bytes.length err ∧ t.out = s.out ++ bytes := by
  have inv : s.Inv := by
    refine reach.invariant ?_ ?_
    · rintro s ⟨before, ymodem, line, rest, run⟩
      exact Inv.opened run
    · rintro s t inv ⟨fuel, size, line, result, rest, tame, run⟩
      exact (inv.streamRead tame run).1
  refine ⟨inv.bytes, inv.book.numbered, inv.book.copied, fun fuel size line result t rest tame run => ?_⟩
  obtain ⟨err, bytes, is, out⟩ := (inv.streamRead tame run).2
  exact ⟨err, bytes, by rwa [Nat.zero_add] at is, out⟩

/-- A packet of 128 bytes, as it comes over the line. -/
def packet (blk : UInt8) (bytes : List UInt8) : Line :=
  let crc := cygCrc16 bytes
  ([soh, blk, 255 - blk] ++ bytes ++ [UInt8.ofNat (crc / 256), UInt8.ofNat crc]).map some

/-- The state before the first transfer. -/
def unset : Xyz := ⟨fun _ => 0, 0, 0, 0, 0, 0, 0, 0, false, false, false, false, 0, 0, [], [], [], []⟩

/-- A block, its duplicate and a padded block. -/
def twoBlocks : Line :=
  packet 1 (List.replicate 128 7) ++ packet 1 (List.replicate 128 7) ++
    packet 2 (List.replicate 125 8 ++ List.replicate 3 eofChar)

set_option maxRecDepth 100000 in
theorem xyz_delivers_split : ∃ s t, streamOpen cygCrc16 parseNum unset false [] = some (some s, []) ∧
    s.streamRead cygCrc16 9 130 0 twoBlocks = some (.returned 130 none, t, []) ∧
    t.out = List.replicate 128 7 ++ List.replicate 2 8 ∧ t.pending = List.replicate 123 8 := by
  obtain ⟨s, opened⟩ : ∃ s, streamOpen cygCrc16 parseNum unset false [] = some (some s, []) := ⟨_, rfl⟩
  have facts : ((streamOpen cygCrc16 parseNum unset false []).bind fun r => r.1.bind fun s =>
      (s.streamRead cygCrc16 9 130 0 twoBlocks).map fun (r, t, rest) =>
        ((tameRead cygCrc16 9 s 130 0 twoBlocks, match r with
          | .returned total none => total
          | _ => 0), t.out, t.expected, rest)) = some ((true, 130), List.replicate 128 7 ++ List.replicate 2 8,
            List.replicate 128 7 ++ List.replicate 125 8, []) := by
    decide +kernel
  rw [opened, Option.bind_some, Option.bind_some] at facts
  obtain ⟨⟨result, t, rest⟩, run, facts⟩ := Option.map_eq_some_iff.mp facts
  simp only [Prod.mk.injEq] at facts
  obtain ⟨⟨holds, total⟩, out, all, rfl⟩ := facts
  have bytes := (xyz_delivers (.next (.start ⟨_, _, _, _, opened⟩) ⟨_, _, _, _, _, holds, run⟩)).1
  refine ⟨s, t, opened, ?_, out, ?_⟩
  · rw [run]
    split at total
    · rw [total]
    · exact absurd total (by decide)
  · rw [out, all, append_assoc] at bytes
    have whole : List.replicate 125 (8 : UInt8) = List.replicate 2 8 ++ List.replicate 123 8 := by decide
    rw [whole] at bytes
    exact append_cancel_left (append_cancel_left bytes)

set_option maxRecDepth 100000 in
/-- A file of 100 bytes for which two blocks are sent. -/
theorem copies_negative : ¬∀ s, (machine cygCrc16 parseNum fun _ _ _ _ => True).Reach s →
    s.out ++ s.pending = s.expected ∧ ∀ c ∈ s.copies, 0 ≤ c.2 ∧ c.2 ≤ 1024 ∧ c.1 + c.2 ≤ 1024 := by
  intro claim
  have facts : ((streamOpen cygCrc16 parseNum unset true
      (packet 0 (97 :: 0 :: 49 :: 48 :: 48 :: List.replicate 123 0))).bind fun r => r.1.bind fun s =>
      (s.streamRead cygCrc16 9 300 0 (packet 1 (List.replicate 128 7) ++ packet 2 (List.replicate 128 8))).map
        fun r => r.2.1.copies) = some [(0, 100), (0, -28)] := by
    decide +kernel
  obtain ⟨⟨file, rest'⟩, begun, facts⟩ := Option.bind_eq_some_iff.mp facts
  obtain ⟨u, rfl, facts⟩ := Option.bind_eq_some_iff.mp facts
  obtain ⟨⟨result, t, rest''⟩, run, copies⟩ := Option.map_eq_some_iff.mp facts
  have made : (0, -28) ∈ t.copies := by
    rw [show t.copies = _ from copies]
    decide
  have negative := (claim t (.next (.start ⟨_, _, _, _, begun⟩) ⟨_, _, _, _, _, trivial, run⟩)).2 (0, -28) made
  exact absurd negative.1 (by decide)

end Ecos.Redboot.Xyz
