import Ecos.Libc.StreamSteps

namespace Ecos.Libc.Stdio
open List Nat StreamBuffer Stream Reference

namespace Reference
variable {r : Reference} {a b : List UInt8}

theorem write_append : (r.write a).write b = r.write (a ++ b) := by
  have position : (r.write a).position = r.position + a.length := rfl
  rw [write, position]
  simp only [write, SeekFile.writeAt_append, length_append, Nat.add_assoc]

theorem write_nil (none : r.ungot = none) : r.write [] = r := by
  have position : r.position = r.offset := by rw [position, none]; rfl
  rw [write, SeekFile.writeAt_nil, position, length_nil, Nat.add_zero, ← none]

end Reference

namespace Stream
variable {s : Stream} {n : Nat} {bytes : List UInt8}

/-- A stream that writes into its buffer. -/
structure Writes (s : Stream) : Prop extends s.Coherent where
  writing : s.lastRead = false
  buffering : s.buffering = true
  none : s.unread = .none

section
variable (writes : s.Writes)
include writes

theorem Writes.pending : s.pending = s.buf.toRead := pending_of_write writes.writing

theorem Writes.empty : s.ahead = [] := by
  rw [ahead, if_neg (by simp [writes.writing]), writes.buffered writes.buffering]
  rfl

theorem Writes.offset_position : s.device.offset + s.pending.length = s.position := by
  have balance := writes.offset
  rw [writes.empty, next, writes.none] at balance
  exact balance

theorem Writes.flush : s.flush.Writes ∧ s.flush.view = s.view ∧ 0 < s.flush.buf.room := by
  obtain ⟨flushed, same, clean, -⟩ := writes.toCoherent.flush
  obtain ⟨-, unread, -, lastRead, buffering, -⟩ := flush_keeps (s := s)
  have after : s.flush.Writes :=
    ⟨flushed, lastRead.trans writes.writing, buffering.trans writes.buffering, unread.trans writes.none⟩
  refine ⟨after, same, flushed.space after.buffering ?_⟩
  rw [← toRead_length, ← after.pending, clean]
  rfl

theorem Writes.putChunk {chunk : List UInt8} (within : chunk.length ≤ s.buf.room) :
    (s.putChunk chunk).Writes ∧ (s.putChunk chunk).view = s.view.write chunk := by
  have sane : (s.putChunk chunk).Sane := (writes.toSane.put writes.buffering within).congr rfl rfl rfl
  have pending : (s.putChunk chunk).pending = s.pending ++ chunk := by
    rw [writes.pending, pending_of_write (show (s.putChunk chunk).lastRead = false from writes.writing)]
    exact toRead_put writes.fits
  have ahead : (s.putChunk chunk).ahead = [] := by
    rw [Stream.ahead, if_neg (by simp [Stream.putChunk, writes.writing]), sane.buffered writes.buffering]
    rfl
  have next : (s.putChunk chunk).next = s.position + chunk.length := by
    change s.position + chunk.length + s.unread.toList.length = _
    rw [writes.none]
    rfl
  have position := writes.offset_position
  have coherent : (s.putChunk chunk).Coherent := by
    refine ⟨sane, ?_, ?_⟩
    · rw [pending, ahead, next, length_append]
      change s.device.offset + _ = _
      rw [length_nil]
      omega
    · rw [ahead]
      exact nil_prefix
  refine ⟨⟨coherent, writes.writing, writes.buffering, writes.none⟩, ?_⟩
  rw [view, pending, next, ← SeekFile.writeAt_append, Reference.write, view_position]
  change (⟨(s.device.file.writeAt s.device.offset s.pending).writeAt (s.device.offset + s.pending.length) chunk, _,
    s.unread⟩ : Reference) = _
  rw [position, writes.none]
  rfl

end

theorem chunkOf_spec : (s.chunkOf bytes).1 <+: bytes ∧ (s.chunkOf bytes).1.length ≤ s.buf.room ∧
    (0 < s.buf.room → bytes ≠ [] → (s.chunkOf bytes).1 ≠ []) := by
  have whole : bytes.take (min s.buf.room bytes.length) <+: bytes := take_prefix _ _
  have fits : (bytes.take (min s.buf.room bytes.length)).length ≤ s.buf.room := by
    rw [length_take]
    omega
  have some : 0 < s.buf.room → bytes ≠ [] → 0 < (bytes.take (min s.buf.room bytes.length)).length := by
    intro room given
    have length := length_pos_of_ne_nil given
    rw [length_take]
    omega
  unfold chunkOf
  dsimp only
  split
  · refine ⟨( take_prefix _ _).trans whole, ?_, fun room given => ?_⟩
    · exact (length_take_le' _ _).trans fits
    · refine ne_nil_of_length_pos ?_
      have length := some room given
      rw [length_take]
      omega
  · exact ⟨whole, fits, fun room given => ne_nil_of_length_pos (some room given)⟩

theorem writeLoop_spec {fuel : Nat} (mustFlush : Bool) (writes : s.Writes) (enough : bytes.length ≤ fuel) :
    (writeLoop fuel s bytes mustFlush).1.Writes ∧ (writeLoop fuel s bytes mustFlush).1.view = s.view.write bytes := by
  induction fuel generalizing s bytes mustFlush with
  | zero =>
    have none : bytes = [] := length_eq_zero_iff.mp (le_zero.mp enough)
    subst none
    exact ⟨writes, (write_nil writes.none).symm⟩
  | succ fuel ih =>
    rw [writeLoop]
    split
    · rename_i none
      subst none
      exact ⟨writes, (write_nil writes.none).symm⟩
    · rename_i given
      have ready : ∃ ready : Stream, (if s.buf.room = 0 ∨ mustFlush = true then s.flush else s) = ready ∧ ready.Writes ∧
          ready.view = s.view ∧ 0 < ready.buf.room := by
        split
        · exact ⟨_, rfl, writes.flush⟩
        · rename_i stays
          exact ⟨_, rfl, writes, rfl, Nat.pos_of_ne_zero fun full => stays (.inl full)⟩
      obtain ⟨ready, is, going, same, room⟩ := ready
      dsimp only
      rw [is]
      obtain ⟨⟨later, split⟩, within, some⟩ := @chunkOf_spec ready bytes
      obtain ⟨put, view⟩ := going.putChunk within
      have length := length_pos_of_ne_nil (some room given)
      have drop : bytes.drop (ready.chunkOf bytes).1.length = later := by
        exact (congrArg (drop _) split).symm.trans (drop_left' rfl)
      have shorter : later.length ≤ fuel := by
        have total := congrArg List.length split
        rw [length_append] at total
        omega
      rw [drop]
      obtain ⟨done, all⟩ := ih (mustFlush || (ready.chunkOf bytes).2) put shorter
      refine ⟨done, all.trans ?_⟩
      rw [view, same, write_append, split]

theorem Coherent.dropInput (coherent : s.Coherent) (none : s.unread = none) :
    s.dropInput.Coherent ∧ s.dropInput.view = s.view := by
  have next : s.next = s.position := by rw [next, none]; rfl
  have size := coherent.toSane.size
  unfold Stream.dropInput
  split
  · rename_i reads
    have clean := pending_of_read reads.1
    let s' : Stream :=
      { s with buf := s.buf.drain, device := { s.device with offset := s.position }, lastRead := false }
    have buffering : s.buffering = true := by
      by_contra direct
      exact reads.2 (coherent.direct (by simpa using direct))
    have sane : s'.Sane := by
      refine ⟨fits_drain, fun _ _ => size buffering, fun _ => rfl, coherent.buffered⟩
    have clean' : s'.pending = [] := pending_of_write rfl
    have ahead : s'.ahead = [] := by
      rw [Stream.ahead, if_neg (by simp [s']), sane.buffered buffering]
      rfl
    refine ⟨⟨sane, ?_, ?_⟩, ?_⟩
    · rw [clean', ahead]
      exact congrArg (· + 0) next.symm
    · rw [ahead]
      exact nil_prefix
    · rw [view_of_clean clean, view_of_clean clean']
      rfl
  · rename_i other
    let s' : Stream := { s with lastRead := false }
    have sane : s'.Sane := coherent.toSane.congr rfl rfl rfl
    have same : s'.pending = s.pending ∧ s'.ahead = s.ahead := by
      by_cases reading : s.lastRead = true
      · have empty : s.buf.spaceUsed = 0 := by
          by_contra filled
          exact other ⟨reading, filled⟩
        have nothing := toRead_eq_nil empty
        refine ⟨?_, ?_⟩
        · rw [pending_of_read reading, pending_of_write (show s'.lastRead = false from rfl)]
          exact nothing
        · rw [Stream.ahead, Stream.ahead, if_pos reading, nothing, if_neg (by simp [s'])]
      · refine ⟨?_, ?_⟩
        · rw [pending_of_write (show s.lastRead = false by simpa using reading)]
          exact pending_of_write (show s'.lastRead = false from rfl)
        · rw [Stream.ahead, Stream.ahead, if_neg reading, if_neg (by simp [s'])]
    exact ⟨coherent.congr sane rfl same.1 same.2 rfl, view_congr rfl same.1⟩

theorem dropInput_keeps : s.dropInput.unread = s.unread ∧ s.dropInput.buffering = s.buffering ∧
    s.dropInput.lastRead = false := by
  unfold dropInput
  split <;> exact ⟨rfl, rfl, rfl⟩

theorem refines_write (coherent : s.Coherent) (none : s.unread = none) (direct : s.buffering = false → bytes = []) :
    s.Refines (.write bytes) := by
  obtain ⟨dropped, same⟩ := coherent.dropInput none
  obtain ⟨unread, keeps, writing⟩ := dropInput_keeps (s := s)
  have spec : (s.write bytes).2.Coherent ∧ (s.write bytes).2.view = s.view.write bytes := by
    unfold write
    dsimp only
    split
    · rename_i buffering
      have writes : s.dropInput.Writes := ⟨dropped, writing, buffering, unread.trans none⟩
      obtain ⟨done, view⟩ := writeLoop_spec false writes (le_refl bytes.length)
      rw [same] at view
      split
      · obtain ⟨flushed, still, -⟩ := done.flush
        exact ⟨flushed.toCoherent, still.trans view⟩
      · exact ⟨done.toCoherent, view⟩
    · rename_i unbuffered
      have empty := direct (keeps ▸ by simpa using unbuffered)
      subst empty
      have device : s.dropInput.device.write [] = s.dropInput.device := by
        rw [Device.write, SeekFile.writeAt_nil]
        rfl
      rw [device]
      exact ⟨dropped, same.trans (write_nil none).symm⟩
  refine ⟨spec.1, ?_, spec.2⟩
  change (s.write bytes).1.bytes = []
  unfold write
  dsimp only
  split <;> rfl

end Stream

end Ecos.Libc.Stdio

namespace Ecos.Libc.Stdio.Stream
open List
variable {s : Stream} {n : Nat} {pos : Int} {whence : Whence}

theorem Coherent.passUnread {c : UInt8} (coherent : s.Coherent) (back : s.unread = some c) :
    ({ s with unread := none, position := s.position + 1 } : Stream).Coherent ∧
      ({ s with unread := none, position := s.position + 1 } : Stream).view = s.view.advance 1 := by
  let s' : Stream := { s with unread := none, position := s.position + 1 }
  have next : s'.next = s.next := by
    rw [next, next, back]
    rfl
  refine ⟨coherent.congr (coherent.toSane.congr rfl rfl rfl) rfl rfl rfl next, ?_⟩
  rw [(view_ungot back).2]
  have view : s'.view = ⟨s.view.file, s'.next, s'.unread⟩ := view_congr rfl rfl
  exact view

theorem Coherent.pass (coherent : s.Coherent) (none : s.unread = none) (filled : s.ahead ≠ []) (less : n < s.ahead.length) :
    ({ s.skip n with position := s.position + n } : Stream).Coherent ∧
      ({ s.skip n with position := s.position + n } : Stream).view = s.view.advance n := by
  have clean := coherent.clean.resolve_right filled
  have still : ({ s with position := s.position + 0 } : Stream).view = s.view.advance 0 := rfl
  unfold skip
  rw [if_neg (by simp [none])]
  dsimp only
  by_cases some : 0 < n
  · by_cases buffering : s.buffering = true
    · rw [if_pos ⟨some, buffering⟩]
      refine refines_takeBuffer coherent clean none buffering ?_
      rw [← StreamBuffer.toRead_length, toRead_ahead coherent.toSane buffering clean]
      exact less.le
    · have one : s.ahead.length ≤ 1 := by
        rw [(coherent.toSane.direct_buffers (by simpa using buffering)).2]
        cases s.readbuf <;> simp
      omega
  · have zero : n = 0 := by omega
    subst zero
    rw [if_neg (by omega), if_neg (by omega)]
    exact ⟨coherent.congr (coherent.toSane.congr rfl rfl rfl) rfl rfl rfl rfl, still⟩

theorem view_advance (behind : s.unread = none ∨ 0 < n) : s.view.advance n = ⟨s.view.file, s.position + n, none⟩ := by
  cases back : s.unread with
  | none =>
    rw [Reference.advance_of_none back]
    change (⟨s.view.file, s.position + s.unread.toList.length + n, none⟩ : Reference) = _
    rw [back]
    rfl
  | some c =>
    have some : 0 < n := behind.resolve_left (by simp [back])
    obtain ⟨m, rfl⟩ := Nat.exists_eq_succ_of_ne_zero (Nat.pos_iff_ne_zero.mp some)
    rw [Nat.succ_eq_add_one, Reference.advance_of_ungot back]
    change (⟨s.view.file, s.position + s.unread.toList.length + m, none⟩ : Reference) = _
    rw [back]
    congr 1
    simp only [Option.toList_some, length_singleton]
    omega

theorem Coherent.skip (coherent : s.Coherent) (less : n < s.bytesAvailable) (behind : s.unread = none ∨ 0 < n) :
    ({ s.skip n with position := s.position + n } : Stream).Coherent ∧
      ({ s.skip n with position := s.position + n } : Stream).view = ⟨s.view.file, s.position + n, none⟩ := by
  rw [bytesAvailable_eq coherent, length_append] at less
  cases back : s.unread with
  | none =>
    rw [back] at less
    have less : n < s.ahead.length := by simpa using less
    obtain ⟨passed, view⟩ := coherent.pass back (ne_nil_of_length_pos (by omega)) less
    exact ⟨passed, view.trans (view_advance (.inl back))⟩
  | some c =>
    have some : 0 < n := behind.resolve_left (by simp [back])
    obtain ⟨m, rfl⟩ := Nat.exists_eq_succ_of_ne_zero (Nat.pos_iff_ne_zero.mp some)
    rw [back] at less
    have less : m < s.ahead.length := by
      simp only [Option.toList_some, length_singleton] at less
      omega
    obtain ⟨first, step⟩ := coherent.passUnread back
    let s' : Stream := { s with unread := none, position := s.position + 1 }
    obtain ⟨passed, view⟩ := first.pass rfl (ne_nil_of_length_pos (lt_of_le_of_lt (Nat.zero_le m) less)) less
    have total : s.position + 1 + m = s.position + (m + 1) := by omega
    have same : ({ s.skip (m + 1) with position := s.position + (m + 1) } : Stream) =
        { s'.skip m with position := s'.position + m } := by
      unfold skip
      rw [if_pos ⟨some, by rw [back]; rfl⟩, if_neg (by simp [s']), ← total]
      dsimp only [s']
      rw [Nat.add_sub_cancel]
      by_cases buffering : 0 < m ∧ s.buffering = true
      · simp only [if_pos buffering]
      · simp only [if_neg buffering]
        by_cases held : 0 < m ∧ s.readbuf.isSome = true
        · simp only [if_pos held]
        · simp only [if_neg held]
    rw [Nat.succ_eq_add_one, same]
    refine ⟨passed, view.trans ?_⟩
    rw [view_advance (.inl rfl)]
    exact congrArg (fun p => (⟨s.view.file, p, none⟩ : Reference)) total

theorem Coherent.seekDevice {place : Nat} (coherent : s.Coherent) (held : s.readbuf = none)
    (target : s.flush.device.target pos whence = place) (p : Nat) :
    (({ s with position := p } : Stream).seekDevice pos whence).2.Coherent ∧
      (({ s with position := p } : Stream).seekDevice pos whence).2.view = ⟨s.view.file, place, none⟩ ∧
      (({ s with position := p } : Stream).seekDevice pos whence).1.bytes = [] := by
  obtain ⟨flushed, same, clean, -⟩ := coherent.flush
  obtain ⟨-, -, readbuf, -, buffering, -⟩ := flush_keeps (s := s)
  have moved : ({ s with position := p } : Stream).flush = { s.flush with position := p } := by
    unfold Stream.flush
    split
    · rfl
    · split <;> rfl
  have found : s.flush.device.lseek pos whence = some ⟨s.flush.device.file, place⟩ := by
    rw [Device.lseek, target, if_neg (by omega)]
    rfl
  let s' : Stream :=
    { s.flush with
      buf := s.flush.buf.drain
      unread := none
      atEof := false
      device := ⟨s.flush.device.file, place⟩
      position := place }
  have result : ({ s with position := p } : Stream).seekDevice pos whence = (⟨.enoerr, [], 0⟩, s') := by
    unfold Stream.seekDevice
    rw [moved]
    dsimp only
    rw [found]
  have none : s'.readbuf = none := readbuf.trans held
  have empty : s'.buf.toRead = [] := rfl
  have sane : s'.Sane := ⟨StreamBuffer.fits_drain, fun keeps _ => flushed.toSane.size keeps, fun _ => rfl, fun _ => none⟩
  have clean' : s'.pending = [] := by
    rw [pending, empty]
    split <;> rfl
  have ahead : s'.ahead = [] := by
    rw [Stream.ahead, empty, none]
    split <;> rfl
  rw [result]
  refine ⟨⟨sane, ?_, ?_⟩, ?_, rfl⟩
  · rw [clean', ahead]
    rfl
  · rw [ahead]
    exact nil_prefix
  · rw [← same, view_of_clean clean, view_of_clean clean']
    rfl

/-- A seek goes wrong in two cases: to where the stream is, it keeps the byte that was put back; and out of what is at
hand, it keeps the byte of `readbuf`. -/
structure SoundSeek (s : Stream) (pos : Int) (whence : Whence) : Prop where
  back : s.AtHand pos whence → s.unread = none ∨ s.posdiff pos whence ≠ 0
  held : ¬ s.AtHand pos whence → s.readbuf = none

theorem refines_seek (coherent : s.Coherent) (sound : s.SoundSeek pos whence) (inside : 0 ≤ s.view.target pos whence) :
    s.Refines (.seek pos whence) := by
  have spec : (s.setPosition pos whence).2.Coherent ∧ (s.setPosition pos whence).2.view = s.view.seek pos whence ∧
      (s.setPosition pos whence).1.bytes = [] := by
    unfold setPosition
    split
    · rename_i atHand
      obtain ⟨noEnd, low, high⟩ := atHand
      have target : s.view.target pos whence = s.position + s.posdiff pos whence := by
        cases whence with
        | set =>
          change pos = s.position + (pos - s.position)
          omega
        | cur =>
          change (s.view.position : Int) + pos = s.position + pos
          rw [view_position]
        | ending => exact absurd rfl noEnd
      have place : (s.view.target pos whence).toNat = s.position + (s.posdiff pos whence).toNat := by omega
      have behind : s.unread = none ∨ 0 < (s.posdiff pos whence).toNat := (sound.back ⟨noEnd, low, high⟩).imp id (by omega)
      obtain ⟨passed, view⟩ := coherent.skip (n := (s.posdiff pos whence).toNat) (by omega) behind
      refine ⟨passed, view.trans ?_, rfl⟩
      rw [Reference.seek, place]
    · rename_i away
      obtain ⟨flushed, same, clean, ahead⟩ := coherent.flush
      have held := sound.held away
      have file : s.flush.device.file = s.view.file := by rw [← same, view_of_clean clean]
      split
      · rename_i isCur
        subst isCur
        have offset : s.flush.device.offset = s.position + s.bytesAvailable := by
          have balance := flushed.offset
          obtain ⟨position, unread, -⟩ := flush_keeps (s := s)
          rw [clean, length_nil, Nat.add_zero, ahead, next, position, unread] at balance
          rw [balance, bytesAvailable_eq coherent, length_append, Nat.add_assoc]
        refine coherent.seekDevice held ?_ _
        have low : 0 ≤ (s.view.position : Int) + pos := inside
        change (s.flush.device.offset : Int) + (pos - s.bytesAvailable) = ((s.view.position : Int) + pos).toNat
        rw [view_position] at low ⊢
        omega
      · rename_i notCur
        refine coherent.seekDevice held ?_ s.position
        cases whence with
        | set =>
          have low : 0 ≤ pos := inside
          change pos = pos.toNat
          omega
        | cur => exact absurd rfl notCur
        | ending =>
          have low : 0 ≤ (s.view.file.size : Int) + pos := inside
          change (s.flush.device.file.size : Int) + pos = ((s.view.file.size : Int) + pos).toNat
          rw [file]
          omega
  refine ⟨spec.1, spec.2.2, ?_⟩
  exact spec.2.1

end Ecos.Libc.Stdio.Stream
