import Ecos.Services.BlibRuns

namespace Ecos.Services.Blib
variable {fails fails' : Nat → Bool} {blank blank' bl bl' last last' : Blib} {fuel fuel' memSize memSize' :
  Nat} {acts : List Act}
  {calls calls' : List (Act × Outcome)} {contents : Nat → Nat → UInt8} {a : Act} {out out' : Outcome}

/-- A call that succeeds has one outcome. -/
theorem outcome_unique (act : bl.act fails a = some (out, last)) (act' : bl'.act fails' a = some (out', last'))
    (done : Done bl contents a out last) (done' : Done bl' contents a out' last') (same : bl.blockSize = bl'.blockSize)
    (ok : out.ret = .ENOERR) (ok' : out'.ret = .ENOERR) : out = out' := by
  have faithful := done.faithful
  have faithful' := done'.faithful
  rw [← same] at faithful'
  obtain ⟨ret, bytes, count⟩ := out
  obtain ⟨ret', bytes', count'⟩ := out'
  obtain rfl : ret = ret' := ok.trans ok'.symm
  cases a with
  | read | bread =>
    obtain rfl : count = count' := (faithful.2 ok).trans (faithful'.2 ok).symm
    obtain rfl : bytes = bytes' := faithful.1.trans faithful'.1.symm
    rfl
  | write | bwrite =>
    obtain rfl : count = count' := (faithful ok).trans (faithful' ok).symm
    obtain ⟨_, _, here⟩ := Option.map_eq_some_iff.mp act
    obtain ⟨_, _, there⟩ := Option.map_eq_some_iff.mp act'
    obtain rfl : [] = bytes := congrArg (·.1.bytes) here
    obtain rfl : [] = bytes' := congrArg (·.1.bytes) there
    rfl
  | sync | syncBlock =>
    have here := Prod.mk.inj (Option.some.inj act)
    have there := Prod.mk.inj (Option.some.inj act')
    obtain ⟨rfl, rfl⟩ : [] = bytes ∧ 0 = count := ⟨congrArg (·.bytes) here.1, congrArg (·.count) here.1⟩
    obtain ⟨rfl, rfl⟩ : [] = bytes' ∧ 0 = count' := ⟨congrArg (·.bytes) there.1, congrArg (·.count) there.1⟩
    rfl
  | flush =>
    obtain ⟨_, _, here⟩ := Option.map_eq_some_iff.mp act
    obtain ⟨_, _, there⟩ := Option.map_eq_some_iff.mp act'
    obtain ⟨rfl, rfl⟩ : [] = bytes ∧ 0 = count := ⟨congrArg (·.1.bytes) here, congrArg (·.1.count) here⟩
    obtain ⟨rfl, rfl⟩ : [] = bytes' ∧ 0 = count' := ⟨congrArg (·.1.bytes) there, congrArg (·.1.count) there⟩
    rfl

section Runs
variable (usable : 0 < bl.poolSize) (usable' : 0 < bl'.poolSize) (run : bl.run fails acts = some (calls, last))
  (run' : bl'.run fails' acts = some (calls', last')) (ok : ∀ c ∈ calls, c.2.ret = .ENOERR)
  (ok' : ∀ c ∈ calls', c.2.ret = .ENOERR)
include usable usable' run run' ok ok'

theorem runs_agree (sound : bl.Sound) (sound' : bl'.Sound) (narrow : bl.blockSize ≤ 2 ^ 31)
    (same : bl.blockSize = bl'.blockSize) (shows : ∀ n, ∀ i < bl.blockSize, bl.view n i = contents n i)
    (shows' : ∀ n, ∀ i < bl.blockSize, bl'.view n i = contents n i) :
    calls = calls' ∧ ∀ n, ∀ i < bl.blockSize, last.view n i = last'.view n i := by
  induction acts generalizing bl bl' contents calls calls' with
  | nil =>
    cases run
    cases run'
    exact ⟨rfl, fun n i inside => (shows n i inside).trans (shows' n i inside).symm⟩
  | cons a acts ih =>
    obtain ⟨out, mid, act, done⟩ := act_spec fails a sound usable narrow shows
    obtain ⟨out', mid', act', done'⟩ := act_spec fails' a sound' usable' (same ▸ narrow) (same ▸ shows')
    rw [Blib.run, act] at run
    rw [Blib.run, act'] at run'
    obtain ⟨⟨rest, _⟩, later, here⟩ := Option.map_eq_some_iff.mp run
    obtain ⟨⟨rest', _⟩, later', there⟩ := Option.map_eq_some_iff.mp run'
    obtain ⟨rfl, rfl⟩ := Prod.mk.inj here
    obtain ⟨rfl, rfl⟩ := Prod.mk.inj there
    obtain rfl := outcome_unique act act' done done' same (ok _ List.mem_cons_self) (ok' _ List.mem_cons_self)
    have kept := done.sizes.blockSize
    have kept' := done'.sizes.blockSize
    have next := ih (done.sizes.poolSize ▸ usable) (done'.sizes.poolSize ▸ usable') later later'
      (fun c mem => ok c (List.mem_cons_of_mem _ mem)) (fun c mem => ok' c (List.mem_cons_of_mem _ mem)) done.sound
      done'.sound (kept ▸ narrow) (by rw [kept, kept', same]) (kept ▸ done.shows)
      (by rw [kept, same]; exact done'.shows)
    rw [kept] at next
    exact ⟨congrArg _ next.1, next.2⟩

/-- Two caches of any sizes over the same contents: calls that succeed return the same in both and leave the same contents. -/
theorem caches_agree {blockSize : UInt32} (created : blank.create fuel memSize blockSize.toNat = some (.ENOERR, bl))
    (created' : blank'.create fuel' memSize' blockSize.toNat = some (.ENOERR, bl'))
    (same : blank.dev.bytes = blank'.dev.bytes) :
    calls = calls' ∧ ∀ n, ∀ i < blockSize.toNat, last.view n i = last'.view n i := by
  obtain ⟨sound, size, narrow, -, shows⟩ := start_accepted blockSize.toNat_lt created rfl
  obtain ⟨sound', size', -, -, shows'⟩ := start_accepted blockSize.toNat_lt created' rfl
  rw [← size]
  exact runs_agree usable usable' run run' ok ok' sound sound' narrow (size.trans size'.symm)
    (fun n i _ => congrFun (shows n) i) fun n i _ => by rw [shows', same]

end Runs

def crossing : List Act := [.write (fun _ => 7) 600 0 100, .read 4 0 98]

theorem caches_agree_crossing : ∃ small large calls calls' last last',
    zeros.create 32 1200 (512 : UInt32).toNat = some (.ENOERR, small) ∧
      small.run (fun _ => false) crossing = some (calls, last) ∧
    zeros.create 32 9000 (512 : UInt32).toNat = some (.ENOERR, large) ∧
      large.run (fun _ => false) crossing = some (calls', last') ∧
    calls = calls' := by
  refine ⟨_, _, _, _, _, _, rfl, rfl, rfl, rfl, ?_⟩
  exact (@caches_agree (fun _ => false) (fun _ => false) zeros zeros _ _ _ _ 32 32 1200 9000 crossing _ _ (by decide)
    (by decide) rfl rfl (by decide) (by decide) 512 rfl rfl rfl).1

end Ecos.Services.Blib
