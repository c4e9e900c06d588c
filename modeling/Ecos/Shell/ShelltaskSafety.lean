import Ecos.Shell.Shelltask

namespace Ecos.Shell
open List Option Nat Function State
variable {κ : Type*} {tab : List (List UInt8 × κ)}

/-- No space at the start, no two together, and no NUL. -/
structure Tidy (l : List UInt8) : Prop where
  spaced : (32 :: l).IsChain fun a b => ¬(a = 32 ∧ b = 32)
  text : 0 ∉ l

namespace Tidy
variable {l : List UInt8} {c : UInt8}

theorem nil : Tidy [] := ⟨.singleton 32, not_mem_nil⟩

theorem take (tidy : Tidy l) (n : ℕ) : Tidy (l.take n) := by
  constructor
  · have whole := tidy.spaced
    rw [← take_append_drop n l, ← cons_append] at whole
    exact (isChain_append.mp whole).1
  · exact fun mem => tidy.text (mem_of_mem_take mem)

theorem snoc (tidy : Tidy l) (text : c ≠ 0) (apart : c = 32 → (32 :: l).getLast? ≠ some 32) : Tidy (l ++ [c]) := by
  constructor
  · rw [← cons_append, isChain_append]
    refine ⟨tidy.spaced, .singleton c, ?_⟩
    rintro x last y first ⟨rfl, rfl⟩
    exact apart (by simpa using first) last
  · simp only [mem_append, mem_singleton, not_or]
    exact ⟨tidy.text, fun same => text same.symm⟩

theorem head (tidy : Tidy l) : l.head? ≠ some 32 := fun same =>
  (isChain_cons.mp tidy.spaced).1 32 same ⟨rfl, rfl⟩

theorem apart (tidy : Tidy l) : ¬[32, 32] <:+: l := by
  rintro ⟨before, after, same⟩
  have pair := List.IsChain.infix tidy.spaced ⟨32 :: before, after, congrArg (32 :: ·) same⟩
  exact (isChain_cons_cons.mp pair).1 ⟨rfl, rfl⟩

/-- The words of a line that does not end in a space are not empty. -/
theorem words_ne (tidy : Tidy l) (last : (32 :: l).getLast? ≠ some 32) : [] ∉ l.splitOn 32 := by
  suffices ∀ a, (a :: l).IsChain (fun a b => ¬(a = 32 ∧ b = 32)) → (a :: l).getLast? ≠ some 32 →
      [] ∉ (l.splitOn 32).tail ∧ (a = 32 → (l.splitOn 32).head? ≠ some []) by
    obtain ⟨tail, head⟩ := this 32 tidy.spaced last
    obtain ⟨w, ws, all⟩ := exists_cons_of_ne_nil (splitOn_ne_nil 32 l)
    rw [all] at tail head ⊢
    simpa using ⟨fun same => head rfl (congrArg some same), tail⟩
  clear tidy last
  induction l with
  | nil => simp
  | cons c l ih =>
    intro a spaced last
    obtain ⟨other, spaced⟩ := isChain_cons_cons.mp spaced
    obtain ⟨tail, head⟩ := ih c spaced (by simpa using last)
    obtain ⟨w, ws, all⟩ := exists_cons_of_ne_nil (splitOn_ne_nil 32 l)
    rw [all] at tail head
    rw [splitOn_cons_eq_if_modifyHead, all]
    by_cases space : c = 32
    · refine ⟨?_, fun same => absurd ⟨same, space⟩ other⟩
      simpa [space] using ⟨fun same => head space (congrArg some same), tail⟩
    · simpa [space] using tail

end Tidy

/-- The array holds the text and a NUL after it. -/
def Stores (array text : List UInt8) : Prop :=
  array.length = comBufLen + 1 ∧ 0 ∉ text ∧ ∃ rest, array = text ++ 0 :: rest

theorem takeWhile_text {text rest : List UInt8} (free : 0 ∉ text) : (text ++ 0 :: rest).takeWhile (· ≠ 0) = text := by
  rw [takeWhile_append_of_pos fun c mem => by simpa using fun same : c = 0 => free (same ▸ mem)]
  simp

theorem Stores.cstring {array text : List UInt8} (stores : Stores array text) : cstring array = some text := by
  obtain ⟨-, free, rest, rfl⟩ := stores
  rw [Shell.cstring, if_pos (by simp), takeWhile_text free]

theorem Stores.strncpy {src dst text : List UInt8} (stores : Stores src text) (fits : text.length < comBufLen)
    (length : dst.length = comBufLen + 1) : Stores (strncpy comBufLen dst src) text := by
  obtain ⟨-, free, rest, rfl⟩ := stores
  have copied : ((text ++ 0 :: rest).take comBufLen).takeWhile (· ≠ 0) = text := by
    obtain ⟨n, more⟩ : ∃ n, comBufLen = text.length + (n + 1) := ⟨comBufLen - text.length - 1, by omega⟩
    rw [more, take_length_add_append, take_succ_cons, takeWhile_text free]
  unfold Shell.strncpy
  simp only [copied]
  refine ⟨?_, free, ?_⟩
  · simp only [length_append, length_replicate, length_drop, length]
    omega
  · obtain ⟨n, more⟩ : ∃ n, comBufLen - text.length = n + 1 := ⟨comBufLen - text.length - 1, by omega⟩
    exact ⟨replicate n 0 ++ dst.drop comBufLen, by rw [more, replicate_succ]; simp⟩

theorem cstring_cons {c : UInt8} {l : List UInt8} (text : c ≠ 0) : cstring (c :: l) = (cstring l).map (c :: ·) := by
  unfold cstring
  by_cases ends : 0 ∈ l
  · simp [ends, text]
  · simp [ends, text.symm]

/-- Where the arguments begin, in the text from `p` on. -/
def starts (p : ℕ) : List UInt8 → List ℕ
  | [] => []
  | c :: rest => if c = 32 then (p + 1) :: starts (p + 1) rest else starts (p + 1) rest

def blank (c : UInt8) : UInt8 := if c = 32 then 0 else c

theorem splitArgs_rest {rest : List UInt8} (fuel p : ℕ) (before after : List UInt8) (argv : List ℕ)
    (here : before.length = p) (fits : p + rest.length < 256) (enough : rest.length < fuel) (free : 0 ∉ rest)
    (begun : argv ≠ []) (room : argv.length + (starts p rest).length ≤ argvLen) :
    splitArgs fuel (before ++ rest ++ 0 :: after) p argv =
      some (before ++ rest.map blank ++ 0 :: after, argv ++ starts p rest) := by
  induction rest generalizing fuel p before argv with
  | nil =>
    obtain ⟨fuel, rfl⟩ := exists_eq_succ_of_ne_zero (by omega : fuel ≠ 0)
    simp [splitArgs, ← here, starts]
  | cons c rest ih =>
    obtain ⟨fuel, rfl⟩ := exists_eq_succ_of_ne_zero (by omega : fuel ≠ 0)
    obtain ⟨isText, free⟩ : 0 ≠ c ∧ 0 ∉ rest := by simpa using free
    simp only [length_cons] at fits enough
    have read : (before ++ c :: rest ++ 0 :: after)[p]? = some c := by simp [← here]
    have step : (p + 1) % 256 = p + 1 := mod_eq_of_lt (by omega)
    rw [splitArgs, read]
    simp only [if_neg isText.symm, step]
    have go := fun argv => ih fuel (p + 1) (before ++ [blank c]) argv (by simp [here]) (by omega) (by omega) free
    simp only [append_assoc, cons_append, nil_append] at go
    by_cases space : c = 32
    · subst space
      have write : (before ++ 32 :: rest ++ 0 :: after).set p 0 = before ++ blank 32 :: (rest ++ 0 :: after) := by
        simp [← here, blank]
      simp only [starts, if_pos, length_cons] at room ⊢
      rw [if_pos (by omega), if_pos (length_pos_iff.mpr begun), write,
        go (argv ++ [p + 1]) (by simp) (by rw [length_append, length_singleton]; omega)]
      simp
    · simp only [starts, if_neg space] at room ⊢
      simpa [blank, space] using go argv begun room

/-- What the handler reads at the entries of `argv` are the words. -/
theorem texts_rest {rest : List UInt8} (before after : List UInt8) (free : 0 ∉ rest) :
    (before.length :: starts before.length rest).map
        (fun p => cstring ((before ++ rest.map blank ++ 0 :: after).drop p)) = (rest.splitOn 32).map some := by
  induction rest generalizing before with
  | nil => simp [starts, cstring]
  | cons c rest ih =>
    obtain ⟨isText, free⟩ : 0 ≠ c ∧ 0 ∉ rest := by simpa using free
    have go := ih (before ++ [blank c]) free
    simp only [length_append, length_singleton, append_assoc, cons_append, nil_append,
      map_cons, drop_length_add_append, drop_succ_cons,
      drop_zero] at go
    obtain ⟨w, ws, all⟩ := exists_cons_of_ne_nil (splitOn_ne_nil 32 rest)
    rw [all, map_cons] at go
    obtain ⟨first, others⟩ := cons.inj go
    rw [splitOn_cons_eq_if_modifyHead, all]
    simp only [map_cons, append_assoc, cons_append, drop_left]
    by_cases space : c = 32
    · subst space
      simp only [starts, blank, if_pos, beq_self_eq_true, map_cons, drop_length_add_append,
        drop_succ_cons, drop_zero] at others ⊢
      rw [others, first]
      simp [cstring]
    · simp only [starts, if_neg space, beq_iff_eq, others, modifyHead_cons, map_cons]
      rw [blank, if_neg space, cstring_cons isText.symm, first, map_some]

/-- The first word, and where the others are. -/
theorem splitOn_line (t : List UInt8) : ∃ w ws, t.splitOn 32 = w :: ws ∧ 32 ∉ w ∧
    (t = w ∧ ws = [] ∨ ∃ rest, t = w ++ 32 :: rest ∧ rest.splitOn 32 = ws) := by
  induction t with
  | nil => exact ⟨[], [], by simp⟩
  | cons c t ih =>
    obtain ⟨w, ws, all, free, place⟩ := ih
    rw [splitOn_cons_eq_if_modifyHead, all]
    by_cases space : c = 32
    · exact ⟨[], w :: ws, by simp [space], not_mem_nil, .inr ⟨t, by simp [space], all⟩⟩
    · refine ⟨c :: w, ws, by simp [space], by simpa [eq_comm] using ⟨space, free⟩, ?_⟩
      rcases place with ⟨rfl, rfl⟩ | ⟨rest, rfl, rfl⟩
      · exact .inl ⟨rfl, rfl⟩
      · exact .inr ⟨rest, rfl, rfl⟩

theorem commandName_word {w more : List UInt8} {c : UInt8} (space : 32 ∉ w) (free : 0 ∉ w) (fits : w.length ≤ 20)
    (ends : c = 32 ∨ c = 0) : commandName (w ++ c :: more) = w := by
  have all : ∀ d ∈ w, decide (d ≠ 32 ∧ d ≠ 0) = true := fun d mem => by
    simpa using ⟨fun same : d = 32 => space (same ▸ mem), fun same : d = 0 => free (same ▸ mem)⟩
  obtain ⟨n, more'⟩ := Nat.exists_eq_add_of_le fits
  rw [commandName, more', take_length_add_append, takeWhile_append_of_pos all]
  cases n <;> rcases ends with rfl | rfl <;> simp

/-- The splitter looks up the first word and passes on the others. -/
theorem countArgc_line {t after : List UInt8} (free : 0 ∉ t) (fits : t.length < 256)
    (name : ((t.splitOn 32).headD []).length ≤ 20)
    (args : (findCmd tab ((t.splitOn 32).headD [])).isSome → (t.splitOn 32).tail.length ≤ argvLen) :
    ∃ buf, buf.length = (t ++ 0 :: after).length ∧ countArgc tab (t ++ 0 :: after) =
      some (buf, ⟨(t.splitOn 32).headD [],
        (findCmd tab ((t.splitOn 32).headD [])).map fun func => (func, (t.splitOn 32).tail.map some)⟩) := by
  obtain ⟨w, ws, all, space, place⟩ := splitOn_line t
  rw [all] at name args ⊢
  simp only [headD_cons, tail_cons] at name args ⊢
  have named : commandName (t ++ 0 :: after) = w := by
    rcases place with ⟨rfl, -⟩ | ⟨rest, rfl, -⟩
    · exact commandName_word space free name (.inr rfl)
    · rw [append_assoc]
      exact commandName_word space (fun mem => free (mem_append_left _ mem)) name (.inl rfl)
  simp only [countArgc, named]
  cases found : findCmd tab w with
  | none => exact ⟨_, rfl, rfl⟩
  | some func =>
    have few := args (by rw [found]; rfl)
    rcases place with ⟨rfl, rfl⟩ | ⟨rest, rfl, rfl⟩
    · refine ⟨_, rfl, ?_⟩
      simp [splitArgs]
    · have free' : 0 ∉ rest := fun mem => free (by simp [mem])
      have texts := texts_rest (w ++ [32]) after free'
      have count := congrArg List.length texts
      simp only [length_append, length_cons, length_nil, zero_add, length_map] at texts count fits
      have go := splitArgs_rest 255 (w.length + 1) (w ++ [32]) after [w.length + 1] (by simp) (by omega) (by omega)
        free' (by simp) (by rw [length_singleton]; omega)
      simp only [append_assoc, cons_append, nil_append] at go texts ⊢
      refine ⟨w ++ 32 :: (rest.map blank ++ 0 :: after), by simp, ?_⟩
      rw [splitArgs]
      simp [argvLen, mod_eq_of_lt (by omega : w.length + 1 < 256), go, ← texts]

/-- What every key keeps. -/
structure Inv (s : State) : Prop where
  length : s.commandBuf.length = comBufLen + 1
  within : s.i < comBufLen
  tidy : Tidy s.line
  recalled : ∀ k, ∃ t, Tidy t ∧ t.length < comBufLen ∧ Stores (s.history k) t

namespace Inv
variable {s : State} {ch : UInt8}

theorem back (inv : Inv s) {n : ℕ} (less : n ≤ s.i) : Inv { s with i := n } where
  length := inv.length
  within := lt_of_le_of_lt less inv.within
  tidy := by
    have cut : s.commandBuf.take n = s.line.take n := by rw [line, take_take, min_eq_left less]
    simpa only [line, cut] using inv.tidy.take n
  recalled := inv.recalled

theorem last (inv : Inv s) (typed : s.i ≠ 0) : s.line.getLast? = s.commandBuf[s.i - 1]? ∧
    (32 :: s.line).getLast? = s.line.getLast? := by
  have := inv.length
  have := inv.within
  have inside : s.i - 1 < s.commandBuf.length := by omega
  have last : s.line.getLast? = some s.commandBuf[s.i - 1] := by
    rw [line, getLast?_take, if_neg typed, getElem?_eq_getElem inside, some_or]
  exact ⟨by rw [last, getElem?_eq_getElem inside], by rw [getLast?_cons, last, getD_some]⟩

theorem put_line (inv : Inv s) (room : s.i ≠ 255) : (s.put ch).line = s.line ++ [ch] := by
  have := inv.length
  have within := inv.within
  simp only [comBufLen] at *
  have inside : s.i < s.commandBuf.length := by omega
  simp only [put, line, mod_eq_of_lt (by omega : s.i + 1 < 256)]
  rw [take_add_one, take_set_of_le le_rfl, getElem?_set_self inside]
  rfl

theorem put (inv : Inv s) (room : s.i ≠ 255) (text : ch ≠ 0)
    (apart : ch = 32 → (32 :: s.line).getLast? ≠ some 32) : Inv (s.put ch) where
  length := by simpa [State.put] using inv.length
  within := mod_lt _ (by decide)
  tidy := inv.put_line room ▸ inv.tidy.snoc text apart
  recalled := inv.recalled

theorem recallEntry (inv : Inv s) (k : Fin 10) : ∃ s', s.recallEntry k = some s' ∧ Inv s' := by
  obtain ⟨t, tidy, fits, stored⟩ := inv.recalled k
  have copied := stored.strncpy fits inv.length
  obtain ⟨rest, same⟩ := copied.2.2
  refine ⟨⟨strncpy comBufLen s.commandBuf (s.history k), t.length, s.history, k⟩, ?_, copied.1, fits, ?_, inv.recalled⟩
  · rw [State.recallEntry, copied.cstring, map_some, mod_eq_of_lt (show t.length < 256 from fits)]
  · rw [line, same, take_left]
    exact tidy

theorem entered (inv : Inv s) (typed : s.i ≠ 0) :
    Tidy s.entered ∧ s.entered.length < comBufLen ∧ (32 :: s.entered).getLast? ≠ some 32 := by
  have short : s.line.length < comBufLen := lt_of_le_of_lt (length_take_le _ _) inv.within
  rw [State.entered]
  split
  · rename_i space
    obtain ⟨e, line⟩ : ∃ e, s.line = e ++ [32] := ⟨_, (dropLast_append_getLast? 32 space).symm⟩
    have tidy := inv.tidy
    rw [line, dropLast_concat]
    rw [line] at tidy short
    have spaced := tidy.spaced
    rw [← cons_append, isChain_append] at spaced
    refine ⟨⟨spaced.1, fun mem => tidy.text (mem_append_left _ mem)⟩, ?_, fun last => ?_⟩
    · rw [length_append] at short
      omega
    · exact spaced.2.2 32 last 32 rfl ⟨rfl, rfl⟩
  · rename_i other
    exact ⟨inv.tidy, short, (inv.last typed).2 ▸ other⟩

/-- Enter puts the NUL behind what it runs. -/
theorem cut (inv : Inv s) (typed : s.i ≠ 0) : ∃ rest,
    s.commandBuf.set (if s.commandBuf[s.i - 1]? = some 32 then s.i - 1 else s.i) 0 = s.entered ++ 0 :: rest := by
  have := inv.length
  have := inv.within
  rw [set_eq_take_append_cons_drop, if_pos (by split <;> omega), State.entered, (inv.last typed).1]
  split
  · rw [line, dropLast_take (by omega)]
    exact ⟨_, rfl⟩
  · exact ⟨_, rfl⟩

theorem store (inv : Inv s) {array t : List UInt8} (tidy : Tidy t) (fits : t.length < comBufLen)
    (stored : Stores array t) (j k : Fin 10) :
    ∃ t, Tidy t ∧ t.length < comBufLen ∧ Stores (Function.update s.history j array k) t := by
  by_cases here : k = j
  · rw [here, update_self]
    exact ⟨t, tidy, fits, stored⟩
  · rw [update_of_ne here]
    exact inv.recalled k

/-- Enter runs the words of the line. -/
theorem enter (inv : Inv s) (typed : s.i ≠ 0) (name : s.command.length ≤ 20)
    (args : (findCmd tab s.command).isSome → s.words.tail.length ≤ argvLen) : ∃ s', s.enter tab =
      some (s', some ⟨s.command, (findCmd tab s.command).map fun func => (func, s.words.tail.map some)⟩) ∧ Inv s' := by
  obtain ⟨tidy, fits, -⟩ := inv.entered typed
  obtain ⟨rest, cut⟩ := inv.cut typed
  obtain ⟨buf, length, run⟩ := @countArgc_line _ _ _ rest tidy.text fits name args
  have whole := inv.length
  rw [← length_set (i := if s.commandBuf[s.i - 1]? = some 32 then s.i - 1 else s.i) (a := 0), cut] at whole
  obtain ⟨old, -, -, stored⟩ := inv.recalled s.sh
  have saved : Stores (strncpy comBufLen (s.history s.sh) (s.entered ++ 0 :: rest)) s.entered :=
    Stores.strncpy ⟨whole, tidy.text, rest, rfl⟩ fits stored.1
  refine ⟨⟨buf.set 0 0, 0, update s.history s.sh (strncpy comBufLen (s.history s.sh) _), s.sh + 1⟩, ?_,
    ?_, zero_lt_succ _, Tidy.nil, inv.store tidy fits saved s.sh⟩
  · rw [State.enter, if_neg typed]
    simp only [cut, run, command, words, map_some]
  · rw [length_set, length, whole]

/-- A character of the line. -/
theorem type (inv : Inv s) (typed : Typed ch) (room : s.i ≠ 255) (apart : ch = 32 → (32 :: s.line).getLast? ≠ some 32) :
    Right tab s ch (s.put ch) none ∧ Inv (s.put ch) := by
  have text : ch ≠ 0 := by
    rintro rfl
    exact absurd typed (by decide)
  refine ⟨⟨fun _ => .inl (inv.put_line room), fun enter => ?_⟩, inv.put room text apart⟩
  rcases enter with rfl | rfl <;> exact absurd typed (by decide)

/-- Every key that stays clear of the overruns does what it should, and keeps the invariant. -/
theorem key (inv : Inv s) (fine : Fine tab s ch) :
    ∃ s' out, s.key tab ch = some (s', out) ∧ Right tab s ch s' out ∧ Inv s' := by
  have edits : ∀ {s' : State}, ¬Typed ch → ¬Enter ch → Right tab s ch s' none := fun other other' =>
    ⟨fun typed => absurd typed other, fun enter => absurd enter other'⟩
  have enters (is_enter : Enter ch) : ∃ s' out, s.enter tab = some (s', out) ∧ Right tab s ch s' out ∧ Inv s' := by
    have other : ¬Typed ch := by rcases is_enter with rfl | rfl <;> decide
    by_cases typed : s.i = 0
    · refine ⟨s, none, by rw [State.enter, if_pos typed], ⟨fun is => absurd is other, fun _ some => ?_⟩, inv⟩
      exact absurd (by rw [line, typed, take_zero]) some
    · obtain ⟨s', run, inv'⟩ := inv.enter typed (fine.name is_enter typed) (fine.args is_enter typed)
      obtain ⟨tidy, -, last⟩ := inv.entered typed
      exact ⟨s', _, run, ⟨fun is => absurd is other, fun _ _ => ⟨tidy.words_ne last, rfl⟩⟩, inv'⟩
  unfold State.key
  split
  · exact ⟨s, none, rfl, edits (by decide) (by decide), inv⟩
  · obtain ⟨s', run, inv'⟩ := inv.recallEntry (s.sh - 1)
    exact ⟨s', none, by rw [run]; rfl, edits (by decide) (by decide), inv'⟩
  · obtain ⟨s', run, inv'⟩ := inv.recallEntry (s.sh + 1)
    exact ⟨s', none, by rw [run]; rfl, edits (by decide) (by decide), inv'⟩
  · exact ⟨_, none, rfl, edits (by decide) (by decide), inv.back (sub_le _ _)⟩
  · exact enters (.inl rfl)
  · exact enters (.inr rfl)
  · exact ⟨_, none, rfl, edits (by decide) (by decide), inv.back (zero_le _)⟩
  · exact ⟨_, none, rfl, edits (by decide) (by decide), inv.back (sub_le _ _)⟩
  · exact ⟨_, none, rfl, edits (by decide) (by decide), inv.back (sub_le _ _)⟩
  · refine ⟨_, none, rfl, ?_⟩
    split
    · exact ⟨⟨fun _ => .inr rfl, fun enter => absurd enter (by decide)⟩, inv⟩
    · rename_i kept
      obtain ⟨begun, -, other⟩ := by simpa only [not_or] using kept
      obtain ⟨last, last'⟩ := inv.last begun
      rw [← last] at other
      exact inv.type (by decide) (fun full => other (fine.room (by decide) full).2) fun _ => last' ▸ other
  · rename_i space
    refine ⟨_, none, rfl, ?_⟩
    split
    · rename_i typed
      exact inv.type typed.1 (fun full => space (fine.room typed.1 full).1) fun same => absurd same space
    · rename_i refused
      refine ⟨⟨fun _ => .inr rfl, fun enter => ?_⟩, inv⟩
      rcases enter with rfl | rfl <;> contradiction

end Inv

/-- A shell just started. -/
def fresh : State where
  commandBuf := List.replicate (comBufLen + 1) 0
  i := 0
  history _ := List.replicate (comBufLen + 1) 0
  sh := 0

end Ecos.Shell
