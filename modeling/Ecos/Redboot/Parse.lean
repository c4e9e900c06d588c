import Mathlib
import Ecos.Lib.Fuel

namespace Ecos.Redboot.Parse

def maxArgv : Nat := 16

def NUL : Char := Char.ofNat 0
def quote : Char := Char.ofNat 34
def backslash : Char := Char.ofNat 92

/-- The line as it is rewritten, and the positions of `cp` and of the arguments in it. -/
structure Scan where
  line : List Char
  cp : Nat
  argv : List Nat

/-- A write into the line; `none` if it is outside. -/
def put (line : List Char) (i : Nat) (c : Char) : Option (List Char) := if i < line.length then some
    (line.set i c) else none

def skipSpaces : Nat → List Char → Nat → Option Nat
  | 0, _, _ => none
  | fuel + 1, line, cp => do
    let c ← (line)[cp]?
    if c = ' ' then skipSpaces fuel line (cp + 1) else some cp

/-- The loop that moves a quoted string over its escapes, with `pp` and `cp`. -/
def moveString : Nat → List Char → Nat → Nat → Option (List Char × Nat × Nat)
  | 0, _, _, _ => none
  | fuel + 1, line, pp, cp => do
    let c ← (line)[cp]?
    if c = NUL ∨ c = quote then some (line, pp, cp)
    else
      let cp := if c = backslash then cp + 1 else cp
      let moved ← (line)[cp]?
      let line ← put line pp moved
      moveString fuel line (pp + 1) (cp + 1)

/-- The inner loop of `parse`: the rest of one word. -/
def word : Nat → Scan → Option Scan
  | 0, _ => none
  | fuel + 1, s => do
    let c ← s.line[s.cp]?
    if c = NUL then some s
    else if c = ' ' then
      let line ← put s.line s.cp NUL
      some { s with line := line, cp := s.cp + 1 }
    else if c = ';' then some s
    else if c = quote then
      let first := s.argv.getLast? = some s.cp
      let argv := if first then s.argv.dropLast ++ [s.cp + 1] else s.argv
      let start := if first then s.cp + 1 else s.cp
      let (line, pp, cp) ← moveString fuel s.line start start
      let c ← (line)[cp]?
      if c = NUL then word fuel ⟨line, cp, argv⟩
      else
        let line ← (if pp ≠ cp then put line pp NUL else some line)
        let line ← put line cp NUL
        some ⟨line, cp + 1, argv⟩
    else word fuel { s with cp := s.cp + 1 }

/-- The outer loop of `parse`, with `semi`. -/
def scan : Nat → Scan → Option (Scan × Bool)
  | 0, _ => none
  | fuel + 1, s => do
    let c ← s.line[s.cp]?
    if c = NUL then some (s, false)
    else
      let cp ← skipSpaces fuel s.line s.cp
      let c ← s.line[cp]?
      if c = NUL then some ({ s with cp := cp }, false)
      else if c = ';' then
        let line ← put s.line cp NUL
        some (⟨line, cp, s.argv⟩, true)
      else
        let s ← word fuel ⟨s.line, cp, if s.argv.length < maxArgv then s.argv ++ [cp] else s.argv⟩
        scan fuel s

/-- The line after a call of `parse`, where the next command starts, and the arguments of this one. -/
structure Parsed where
  line : List Char
  next : Nat
  argv : List Nat

/-- `parse`, up to `cmd_search`; `none` if an access is outside of the line, or the fuel is used up. -/
def parse (fuel : Nat) (line : List Char) (start : Nat) : Option Parsed := do
  let (s, semi) ← scan fuel ⟨line, start, []⟩
  some ⟨s.line, if semi then s.cp + 1 else s.cp, s.argv⟩

/-- The string at a position; `none` if it is not terminated within the line. -/
def stringAt (line : List Char) (i : Nat) : Option (List Char) :=
  if NUL ∈ line.drop i then some ((line.drop i).takeWhile (· ≠ NUL)) else none

/-- The loop of `cyg_start` over the commands of a line: the calls of `parse`, and where it stops. -/
def commands : Nat → List Char → Nat → Option (List Parsed × Nat)
  | 0, _, _ => none
  | fuel + 1, line, command => do
    let rest ← stringAt line command
    if rest = [] then some ([], command)
    else
      let p ← parse fuel line command
      let (ps, stop) ← commands fuel p.line p.next
      some (p :: ps, stop)

/-- A character that ends no word and begins no string. -/
def plain (c : Char) : Bool := c ≠ ' ' && c ≠ ';' && c ≠ quote

/-- Where in a command one is: at its start, between words, in a word, in a string, behind a backslash in a string.
The number is that of the arguments so far. -/
inductive Place
  | fresh
  | between (n : Nat)
  | inWord (n : Nat)
  | inString (n : Nat)
  | escaped (n : Nat)

namespace Place

/-- Between two words; a full `argv` makes a quote end a word and not begin a string. -/
def stepBetween (n : Nat) (c : Char) : Place :=
  if c = ' ' then between n
  else if c = ';' then fresh
  else if c = quote then (if n < maxArgv then inString (n + 1) else between n)
  else inWord (if n < maxArgv then n + 1 else n)

/-- The next place; a semicolon without a word before it has none. -/
def step : Place → Char → Option Place
  | fresh, c => if c = ';' then none else some (stepBetween 0 c)
  | between n, c => if c = ';' ∧ n = 0 then none else some (stepBetween n c)
  | inWord n, c => some (if c = ' ' ∨ c = quote then between n else if c = ';' then fresh else inWord n)
  | inString n, c => some (if c = quote then between n else if c = backslash then escaped n else inString n)
  | escaped n, _ => some (inString n)

/-- The line may end here: not in a command of blanks only, and not behind a backslash in a string. -/
def ends : Place → Bool
  | between n => n ≠ 0
  | escaped _ => false
  | _ => true

/-- A word that begins here becomes an argument. -/
def atStart : Place → Bool
  | fresh => true
  | between n => n < maxArgv
  | _ => false

end Place

/-- No command of the line consists of blanks only, and the line does not end behind a backslash in a string. -/
def wellFormed : Place → List Char → Bool
  | p, [] => p.ends
  | p, c :: t =>
    match p.step c with
    | none => false
    | some q => wellFormed q t

/-- The unquoted words of a line that become arguments, with their positions. -/
def words : Place → Nat → List Char → List (Nat × List Char)
  | _, _, [] => []
  | p, i, c :: t =>
    (if p.atStart && plain c then [(i, (c :: t).takeWhile plain)] else []) ++
      match p.step c with
      | none => []
      | some q => words q (i + 1) t

/-- All of the line is split, within its bounds; every call has set `argv[0]`, and at most `MAX_ARGV` arguments, all
of them strings in the line; and each unquoted word is an argument of one call. -/
def Splits (text : List Char) : Prop :=
  ∃ fuel ps, commands fuel (text ++ [NUL]) 0 = some (ps, text.length) ∧
    (∀ p ∈ ps, p.argv ≠ [] ∧ p.argv.length ≤ maxArgv ∧ ∀ i ∈ p.argv, (stringAt p.line i).isSome) ∧
    ∀ w ∈ words .fresh 0 text, ∃ p ∈ ps, w.1 ∈ p.argv ∧ stringAt p.line w.1 = some w.2

open List Nat Place
variable {line line' t : List Char} {cp pp i n fuel fuel' : Nat} {c : Char} {argv : List Nat} {s s' : Scan} {p : Place}

/-- What is still to be read: the characters of `t`, and the terminator. -/
structure Ahead (line : List Char) (cp : Nat) (t : List Char) : Prop where
  rest : line.drop cp = t ++ [NUL]
  text : NUL ∉ t

namespace Ahead

theorem get (ahead : Ahead line cp (c :: t)) : (line)[cp]? = some c := by
  rw [← head?_drop, ahead.rest]
  rfl

theorem get_end (ahead : Ahead line cp []) : (line)[cp]? = some NUL := by
  rw [← head?_drop, ahead.rest]
  rfl

theorem next (ahead : Ahead line cp (c :: t)) : Ahead line (cp + 1) t := by
  refine ⟨?_, fun inside => ahead.text (mem_cons_of_mem _ inside)⟩
  rw [← drop_drop, ahead.rest]
  rfl

theorem ne_nul (ahead : Ahead line cp (c :: t)) : c ≠ NUL := by
  rintro rfl
  exact ahead.text (mem_cons_self ..)

theorem length (ahead : Ahead line cp t) : line.length = cp + t.length + 1 := by
  have same := congrArg List.length ahead.rest
  simp only [length_drop, length_append, length_singleton] at same
  omega

theorem set (ahead : Ahead line cp t) (before : i < cp) : Ahead (line.set i c) cp t := by
  refine ⟨?_, ahead.text⟩
  rw [drop_set_of_lt before, ahead.rest]

theorem skip {u : List Char} (ahead : Ahead line cp (u ++ t)) : Ahead line (cp + u.length) t := by
  induction u generalizing cp with
  | nil => exact ahead
  | cons c u ih =>
    have later := ih ahead.next
    rwa [show cp + 1 + u.length = cp + (c :: u).length by rw [length_cons]; omega] at later

theorem put (ahead : Ahead line cp t) (inside : i ≤ cp) : Parse.put line i c = some (line.set i c) := by
  rw [Parse.put, if_pos (by have := ahead.length; omega)]

theorem unique {t' : List Char} (ahead : Ahead line cp t) (ahead' : Ahead line cp t') : t = t' :=
  append_cancel_right (ahead.rest.symm.trans ahead'.rest)

theorem isSome (ahead : Ahead line cp t) (before : i ≤ cp + t.length) : (stringAt line i).isSome := by
  have inside : NUL ∈ line.drop i := by
    have last : Ahead line (cp + t.length) [] := skip (t := []) (by rwa [append_nil])
    obtain ⟨k, same⟩ := Nat.exists_eq_add_of_le before
    have far : NUL ∈ (line.drop i).drop k := by rw [drop_drop, ← same, last.rest]; simp
    exact mem_of_mem_drop far
  rw [stringAt, if_pos inside]
  rfl

end Ahead

section
variable (le : fuel ≤ fuel')
include le

theorem skipSpaces_mono (ends : skipSpaces fuel line cp = some i) : skipSpaces fuel' line cp = some i := by
  refine fuel_mono (F := fun n cp => skipSpaces n line cp) (fun _ => rfl) (fun n m _ ih cp => ?_) le cp i ends
  exact .bind .refl fun c _ => .ite (fun space => ih _) fun other => .refl

theorem moveString_mono {r : List Char × Nat × Nat} (ends : moveString fuel line pp cp = some r) :
    moveString fuel' line pp cp = some r := by
  refine fuel_mono (F := fun n x => moveString n x.1 x.2.1 x.2.2) (fun _ => rfl) (fun n m _ ih x => ?_) le
    (line, pp, cp) r ends
  exact .bind .refl fun c _ => .ite (fun stop => .refl) fun more => .bind .refl fun moved _ =>
    .bind .refl fun line _ => ih (_, _, _)

theorem word_mono (ends : word fuel s = some s') : word fuel' s = some s' := by
  refine fuel_mono (fun _ => rfl) (fun n m le ih s => ?_) le s s' ends
  refine .bind .refl fun c _ => .ite (fun isEnd => .refl) fun _ => .ite (fun space => .refl) fun _ =>
    .ite (fun semi => .refl) fun _ => .ite (fun quoted => ?_) fun _ => ih _
  exact .bind (fun _ => moveString_mono le) fun x _ => .bind .refl fun d _ =>
    .ite (fun unbalanced => ih _) fun _ => .refl

theorem scan_mono {r : Scan × Bool} (ends : scan fuel s = some r) : scan fuel' s = some r := by
  refine fuel_mono (fun _ => rfl) (fun n m le ih s => ?_) le s r ends
  refine .bind .refl fun c _ => .ite (fun isEnd => .refl) fun _ => .bind (fun _ => skipSpaces_mono le) fun cp _ => ?_
  exact .bind .refl fun d _ => .ite (fun isEnd => .refl) fun _ => .ite (fun semi => .refl) fun _ =>
    .bind (fun _ => word_mono le) fun s _ => ih s

theorem commands_mono {r : List Parsed × Nat} (ends : commands fuel line cp = some r) :
    commands fuel' line cp = some r := by
  refine fuel_mono (F := fun n x => commands n x.1 x.2) (fun _ => rfl) (fun n m le ih x => ?_) le (line, cp) r ends
  exact .bind .refl fun rest _ => .ite (fun ends => .refl) fun _ =>
    .bind (.bind (fun _ => scan_mono le) fun _ _ => .refl) fun p _ => .bind (ih (_, _)) fun _ _ => .refl

end

/-- Where a string ends, from behind a backslash or not: `none` if the line ends behind a backslash, `some none` if the
string does not end. -/
def closing : Bool → List Char → Option (Option (List Char))
  | escape, [] => if escape then none else some none
  | true, _ :: t => closing false t
  | false, c :: t => if c = quote then some (some t) else closing (c = backslash) t

theorem wellFormed_inString {escape : Bool} : wellFormed (if escape then .escaped n else .inString n) t =
    match closing escape t with
    | none => false
    | some none => true
    | some (some rest) => wellFormed (.between n) rest := by
  induction t generalizing escape with
  | nil => cases escape <;> rfl
  | cons c t ih =>
    cases escape with
    | true => exact @ih false
    | false =>
      by_cases isQuote : c = quote
      · simp [wellFormed, closing, step, isQuote]
      · have later := @ih (c = backslash)
        simpa [wellFormed, closing, step, isQuote] using later

theorem words_inString {escape : Bool} : words (if escape then .escaped n else .inString n) i t =
    match closing escape t with
    | some (some rest) => words (.between n) (i + (t.length - rest.length)) rest
    | _ => [] := by
  induction t generalizing escape i with
  | nil => cases escape <;> rfl
  | cons c t ih =>
    have shift : ∀ rest : List Char, rest.length ≤ t.length →
        i + 1 + (t.length - rest.length) = i + ((c :: t).length - rest.length) := fun rest le => by
      rw [length_cons]
      omega
    have short : ∀ escape, ∀ rest, closing escape t = some (some rest) → rest.length ≤ t.length := by
      intro escape rest
      clear ih shift
      induction t generalizing escape with
      | nil => cases escape <;> simp [closing]
      | cons d t ih =>
        intro closes
        rw [length_cons]
        cases escape with
        | true => exact le_succ_of_le (ih _ closes)
        | false =>
          rw [closing] at closes
          split at closes
          · obtain rfl : t = rest := by simpa using closes
            omega
          · exact le_succ_of_le (ih _ closes)
    have later : ∀ escape, words (if escape then .escaped n else .inString n) (i + 1) t = match closing escape t with
        | some (some rest) => words (.between n) (i + ((c :: t).length - rest.length)) rest
        | _ => [] := fun escape => by
      rw [ih]
      cases closes : closing escape t with
      | none => rfl
      | some r =>
        cases r with
        | none => rfl
        | some rest => simp only [shift rest (short escape rest closes)]
    cases escape with
    | true => simpa [words, closing, step, atStart] using later false
    | false =>
      by_cases isQuote : c = quote
      · simp [words, closing, step, isQuote, atStart]
      · simpa [words, closing, step, isQuote, atStart] using later (c = backslash)

/-- The line has changed only from a position on. -/
structure Kept (k : Nat) (line line' : List Char) : Prop where
  length : line'.length = line.length
  same : ∀ j < k, line'[j]? = (line)[j]?

theorem Kept.refl {k : Nat} : Kept k line line := ⟨rfl, fun _ _ => rfl⟩

theorem Kept.trans {k k' : Nat} {line'' : List Char} (first : Kept k line line') (second : Kept k' line' line'')
    (le : k ≤ k') :
    Kept k line line'' :=
  ⟨second.length.trans first.length, fun j less => (second.same j (by omega)).trans (first.same j less)⟩

theorem Kept.set {k : Nat} (le : k ≤ i) : Kept k line (line.set i c) :=
  ⟨length_set .., fun j less => getElem?_set_ne (by omega)⟩

/-- The turn of the loop over a string, behind the test for an escape. -/
def move (fuel : Nat) (line : List Char) (pp cp : Nat) : Option (List Char × Nat × Nat) := do
  let moved ← (line)[cp]?
  let line ← put line pp moved
  moveString fuel line (pp + 1) (cp + 1)

theorem moveString_spec {escape : Bool} (ahead : Ahead line cp t) (behind : pp ≤ cp) (enough : t.length < fuel) :
    match closing escape t with
    | none => (if escape then move fuel line pp cp else moveString fuel line pp cp) = none
    | some none => ∃ line' pp', (if escape then move fuel line pp cp else moveString fuel line pp cp) =
        some (line', pp', cp + t.length) ∧ Ahead line' (cp + t.length) [] ∧ Kept pp line line'
    | some (some rest) => ∃ line' pp' cp', (if escape then move fuel line pp cp else moveString fuel line pp cp) =
        some (line', pp', cp') ∧ Ahead line' cp' (quote :: rest) ∧ pp ≤ pp' ∧ pp' ≤ cp' ∧ cp ≤ cp' ∧
          Kept pp line line' := by
  induction t generalizing escape line pp cp fuel with
  | nil =>
    obtain ⟨fuel, rfl⟩ : ∃ k, fuel = k + 1 := ⟨fuel - 1, by omega⟩
    cases escape with
    | true =>
      simp only [closing, if_true]
      have beyond : (line.set pp NUL)[cp + 1]? = none := by
        rw [getElem?_eq_none]
        have := ahead.length
        rw [length_set, this]
        simp
      rw [move, ahead.get_end]
      simp only [Option.bind_eq_bind, Option.bind_some, ahead.put behind, moveString, beyond, Option.bind_none]
    | false =>
      refine ⟨line, pp, ?_, ahead, .refl⟩
      rw [moveString, ahead.get_end]
      simp
  | cons c t ih =>
    rw [length_cons] at enough
    -- a character is moved, and the loop goes on
    have moved : ∀ fuel, t.length < fuel → match closing false t with
        | none => move fuel line pp cp = none
        | some none => ∃ line' pp', move fuel line pp cp =
            some (line', pp', cp + (c :: t).length) ∧ Ahead line' (cp + (c :: t).length) [] ∧ Kept pp line line'
        | some (some rest) => ∃ line' pp' cp', move fuel line pp cp =
            some (line', pp', cp') ∧ Ahead line' cp' (quote :: rest) ∧ pp ≤ pp' ∧ pp' ≤ cp' ∧ cp ≤ cp' ∧
              Kept pp line line' := by
      intro fuel enough
      have later := @ih (line.set pp c) (cp + 1) (pp + 1) fuel false (ahead.next.set (by omega)) (by omega) enough
      have unfolded : move fuel line pp cp = moveString fuel (line.set pp c) (pp + 1) (cp + 1) := by
        simp only [move, ahead.get, Option.bind_eq_bind, Option.bind_some, ahead.put behind]
      have kept : ∀ line', Kept (pp + 1) (line.set pp c) line' → Kept pp line line' := fun line' rest =>
        (Kept.set (le_refl pp)).trans rest (le_succ pp)
      rw [unfolded]
      simp only [Bool.false_eq_true, if_false] at later
      cases closes : closing false t with
      | none => simpa only [closes] using later
      | some r =>
        cases r with
        | none =>
          simp only [closes] at later ⊢
          obtain ⟨line', pp', run, ahead', same⟩ := later
          rw [show cp + (c :: t).length = cp + 1 + t.length by rw [length_cons]; omega]
          exact ⟨line', pp', run, ahead', kept line' same⟩
        | some rest =>
          simp only [closes] at later ⊢
          obtain ⟨line', pp', cp', run, ahead', left, right, further, same⟩ := later
          exact ⟨line', pp', cp', run, ahead', by omega, right, by omega, kept line' same⟩
    cases escape with
    | true =>
      exact moved fuel (by omega)
    | false =>
      obtain ⟨fuel, rfl⟩ : ∃ k, fuel = k + 1 := ⟨fuel - 1, by omega⟩
      simp only [Bool.false_eq_true, if_false]
      by_cases isQuote : c = quote
      · simp only [closing, isQuote, if_true]
        subst isQuote
        refine ⟨line, pp, cp, ?_, ahead, le_rfl, behind, le_rfl, .refl⟩
        rw [moveString, ahead.get]
        simp
      · have goesOn : moveString (fuel + 1) line pp cp = move fuel line pp (if c = backslash then cp + 1 else cp) := by
          rw [moveString, ahead.get]
          simp only [Option.bind_eq_bind, Option.bind_some, ahead.ne_nul, isQuote, or_self, if_false, move]
        rw [goesOn]
        simp only [closing, isQuote, if_false]
        by_cases isBackslash : c = backslash
        · simp only [isBackslash, if_true, decide_true]
          have later := @ih line (cp + 1) pp fuel true ahead.next (by omega) (by omega)
          simp only [if_true] at later
          cases closes : closing true t with
          | none => simpa only [closes] using later
          | some r =>
            cases r with
            | none =>
              simp only [closes] at later ⊢
              rwa [show cp + (backslash :: t).length = cp + 1 + t.length by rw [length_cons]; omega]
            | some rest =>
              simp only [closes] at later ⊢
              obtain ⟨line', pp', cp', run, ahead', left, right, further, same⟩ := later
              exact ⟨line', pp', cp', run, ahead', left, right, by omega, same⟩
        · simp only [isBackslash, if_false, decide_false]
          exact moved fuel (by omega)

theorem Ahead.string (ahead : Ahead line cp t) : stringAt line cp = some t := by
  have inside : NUL ∈ line.drop cp := by rw [ahead.rest]; simp
  rw [stringAt, if_pos inside, ahead.rest, takeWhile_append_of_pos]
  · simp
  · intro c mem
    have : c ≠ NUL := by rintro rfl; exact ahead.text mem
    simpa using this

/-- A word that has been read stands in the line, and a terminator behind it, if not at the end or at a semicolon. -/
structure Spelled (line : List Char) (i : Nat) (w : List Char) (cp : Nat) (t : List Char) : Prop where
  letters : ∀ j < w.length, (line)[i + j]? = w[j]?
  place : i + w.length ≤ cp
  closed : i + w.length < cp → (line)[i + w.length]? = some NUL
  pending : i + w.length = cp → t = [] ∨ ∃ r, t = ';' :: r

theorem stringAt_eq {w : List Char} (letters : ∀ j < w.length, (line)[i + j]? = w[j]?)
    (ends : (line)[i + w.length]? = some NUL)
    (text : NUL ∉ w) : stringAt line i = some w := by
  have drops : ∃ rest, line.drop i = w ++ NUL :: rest := by
    clear text
    induction w generalizing i with
    | nil =>
      refine ⟨line.drop (i + 1), ?_⟩
      have cell : (line)[i]? = some NUL := ends
      obtain ⟨less, is⟩ := List.getElem?_eq_some_iff.mp cell
      rw [drop_eq_getElem_cons less, is]
      rfl
    | cons c w ih =>
      obtain ⟨rest, later⟩ := @ih (i + 1) (fun j less => by
        have := letters (j + 1) (by rw [length_cons]; omega)
        rwa [show i + (j + 1) = i + 1 + j by omega, getElem?_cons_succ] at this)
        (by rwa [length_cons, show i + (w.length + 1) = i + 1 + w.length by omega] at ends)
      refine ⟨rest, ?_⟩
      have cell : (line)[i]? = some c := letters 0 (by simp)
      obtain ⟨less, is⟩ := List.getElem?_eq_some_iff.mp cell
      rw [drop_eq_getElem_cons less, is, later]
      rfl
  obtain ⟨rest, drops⟩ := drops
  rw [stringAt, drops, if_pos (by simp), takeWhile_append_of_pos]
  · simp
  · intro c mem
    have : c ≠ NUL := by rintro rfl; exact text mem
    simpa using this

theorem Spelled.keep {w t' : List Char} {cp' : Nat} (spelled : Spelled line i w cp t) (kept : Kept cp line line')
    (le : cp < cp')
    (ends : i + w.length = cp → line'[cp]? = some NUL) : Spelled line' i w cp' t' := by
  obtain ⟨letters, place, closed, pending⟩ := spelled
  refine ⟨fun j less => by rw [kept.same _ (by omega), letters j less], by omega, fun _ => ?_, by omega⟩
  by_cases here : i + w.length = cp
  · rw [here]
    exact ends here
  · rw [kept.same _ (by omega)]
    exact closed (by omega)

/-- What the rest of a word leads to: the scan behind it, and what is still to be read there. -/
structure WordEnd (n : Nat) (p : Place) (s : Scan) (t : List Char) (s' : Scan) (t' : List Char) : Prop where
  ahead : Ahead s'.line s'.cp t'
  shorter : t'.length ≤ t.length
  further : s.cp ≤ s'.cp
  same : wellFormed p t = wellFormed (.between n) t'
  found : words p s.cp t = words (.between n) s'.cp t'

/-- From within a word on, it ends at the next character that is not plain. -/
theorem word_rest (positive : 0 < n) (ahead : Ahead s.line s.cp t) (old : ∀ i ∈ s.argv, i < s.cp)
    (enough : t.length < fuel) :
    ∃ s' t', word fuel s = some s' ∧ s'.argv = s.argv ∧ WordEnd n (.inWord n) s t s' t' ∧ Kept s.cp s.line s'.line ∧
      Spelled s'.line s.cp (t.takeWhile plain) s'.cp t' := by
  induction t generalizing s fuel with
  | nil =>
    obtain ⟨fuel, rfl⟩ : ∃ k, fuel = k + 1 := ⟨fuel - 1, by omega⟩
    refine ⟨s, [], ?_, rfl, ⟨ahead, le_rfl, le_rfl, ?_, rfl⟩, .refl, ?_⟩
    · rw [word, ahead.get_end]
      simp
    · simp [wellFormed, ends, ne_of_gt positive]
    · exact ⟨by simp, by simp, by simp, fun _ => .inl rfl⟩
  | cons c t ih =>
    obtain ⟨fuel, rfl⟩ : ∃ k, fuel = k + 1 := ⟨fuel - 1, by omega⟩
    rw [length_cons] at enough
    have notNul := ahead.ne_nul
    -- a blank or a quote is overwritten
    have closes : (c = ' ' ∨ c = quote) →
      word (fuel + 1) s = some { s with line := s.line.set s.cp NUL, cp := s.cp + 1 } →
        ∃ s' t', word (fuel + 1) s = some s' ∧ s'.argv = s.argv ∧ WordEnd n (.inWord n) s (c :: t) s' t' ∧
          Kept s.cp s.line s'.line ∧ Spelled s'.line s.cp ((c :: t).takeWhile plain) s'.cp t' := by
      intro which run
      have notPlain : plain c = false := by rcases which with rfl | rfl <;> decide
      refine ⟨_, t, run, rfl, ⟨ahead.next.set (lt_succ_self _), by simp, le_succ _, ?_, ?_⟩,
        .set le_rfl, ?_⟩
      · simp [wellFormed, step, which]
      · simp [words, step, which, atStart]
      · rw [takeWhile_cons, notPlain]
        have := ahead.length
        exact ⟨by simp, by simp, fun _ => by simp [getElem?_set]; omega, by simp⟩
    by_cases space : c = ' '
    · refine closes (.inl space) ?_
      rw [word, ahead.get]
      simp only [Option.bind_eq_bind, Option.bind_some]
      rw [if_neg notNul, if_pos space, ahead.put le_rfl]
      rfl
    by_cases semi : c = ';'
    · subst semi
      refine ⟨s, ';' :: t, ?_, rfl, ⟨ahead, le_rfl, le_rfl, ?_, ?_⟩, .refl, ?_⟩
      · rw [word, ahead.get]
        simp only [Option.bind_eq_bind, Option.bind_some, notNul, if_false, space, if_true]
      · simp [wellFormed, step, stepBetween, ne_of_gt positive, show ';' ≠ quote by decide]
      · simp [words, step, stepBetween, ne_of_gt positive, show ';' ≠ quote by decide, atStart,
          show plain ';' = false by decide]
      · rw [takeWhile_cons, show plain ';' = false by decide]
        exact ⟨by simp, by simp, by simp, fun _ => .inr ⟨t, rfl⟩⟩
    by_cases isQuote : c = quote
    · refine closes (.inr isQuote) ?_
      have notLast : s.argv.getLast? ≠ some s.cp := fun last => by
        have := old _ (mem_of_getLast? last)
        omega
      have stays : moveString fuel s.line s.cp s.cp = some (s.line, s.cp, s.cp) := by
        obtain ⟨fuel, rfl⟩ : ∃ k, fuel = k + 1 := ⟨fuel - 1, by omega⟩
        rw [moveString, ahead.get]
        simp [isQuote]
      rw [word, ahead.get]
      simp only [Option.bind_eq_bind, Option.bind_some]
      rw [if_neg notNul, if_neg space, if_neg semi, if_pos isQuote]
      simp only [notLast, if_false, stays, Option.bind_some, ahead.get, notNul, ne_eq, not_true_eq_false,
        ahead.put le_rfl]
    · have isPlain : plain c = true := by simp [plain, space, semi, isQuote]
      have step : word (fuel + 1) s = word fuel { s with cp := s.cp + 1 } := by
        rw [word, ahead.get]
        simp only [Option.bind_eq_bind, Option.bind_some, notNul, space, semi, isQuote, if_false]
      obtain ⟨s', t', run, argv, ends, kept, spelled⟩ := @ih fuel { s with cp := s.cp + 1 } ahead.next
        (fun i mem => lt_succ_of_lt (old i mem)) (by omega)
      obtain ⟨ahead', shorter, further, same, found⟩ := ends
      have kept : Kept (s.cp + 1) s.line s'.line := kept
      have further : s.cp + 1 ≤ s'.cp := further
      refine ⟨s', t', step.trans run, argv, ⟨ahead', le_succ_of_le shorter, by omega, ?_, ?_⟩,
        (Kept.refl (k := s.cp)).trans kept (le_succ _), ?_⟩
      · rw [← same]
        simp [wellFormed, Place.step, space, semi, isQuote]
      · rw [← found]
        simp [words, Place.step, space, semi, isQuote, Place.atStart]
      · obtain ⟨letters, place, closed, pending⟩ := spelled
        dsimp only at letters place closed pending
        rw [takeWhile_cons, isPlain, if_pos rfl]
        have first : s'.line[s.cp]? = some c := by rw [kept.same _ (lt_succ_self _), ahead.get]
        have length : (c :: t.takeWhile plain).length = (t.takeWhile plain).length + 1 := length_cons
        refine ⟨fun j less => ?_, by omega, fun before => ?_, fun here => pending (by omega)⟩
        · cases j with
          | zero => simpa using first
          | succ j =>
            have := letters j (by omega)
            rwa [show s.cp + (j + 1) = s.cp + 1 + j by omega, getElem?_cons_succ]
        · have := closed (by omega)
          rw [length]
          rwa [show s.cp + ((t.takeWhile plain).length + 1) = s.cp + 1 + (t.takeWhile plain).length by omega]

/-- The arguments start behind, or at the end of the line, if it ends behind a quote. -/
def Behind (argv : List Nat) (cp : Nat) (t : List Char) : Prop := ∀ i ∈ argv, i < cp ∨ i = cp ∧ t = []

/-- A whole word. It becomes an argument if there is room. -/
theorem word_start (ahead : Ahead line cp (c :: t)) (old : ∀ i ∈ argv, i < cp) (notSpace : c ≠ ' ') (notSemi : c ≠ ';')
    (enough : t.length + 1 < fuel) :
    let s : Scan := ⟨line, cp, if argv.length < maxArgv then argv ++ [cp] else argv⟩
    let n := if argv.length < maxArgv then argv.length + 1 else argv.length
    word fuel s = none ∧ wellFormed (stepBetween argv.length c) t = false ∨
      ∃ s' t', word fuel s = some s' ∧ s'.argv.length = n ∧ (∀ i ∈ argv, i ∈ s'.argv) ∧ Behind s'.argv s'.cp t' ∧
        WordEnd n (stepBetween argv.length c) ⟨line, cp + 1, argv⟩ t s' t' ∧ Kept cp line s'.line ∧
        (argv.length < maxArgv → plain c = true → cp ∈ s'.argv ∧
          Spelled s'.line cp ((c :: t).takeWhile plain) s'.cp t') := by
  obtain ⟨fuel, rfl⟩ : ∃ k, fuel = k + 1 := ⟨fuel - 1, by omega⟩
  intro s n
  have notNul := ahead.ne_nul
  have positive : 0 < n := by
    have : 0 < maxArgv := by decide
    simp only [n]
    split <;> omega
  by_cases isQuote : c = quote
  · have notPlain : plain c = false := by rw [isQuote]; decide
    have unfolded : ∀ argv' start, (if s.argv.getLast? = some cp then s.argv.dropLast ++ [cp + 1] else s.argv) = argv' →
        (if s.argv.getLast? = some cp then cp + 1 else cp) = start → word (fuel + 1) s = (do
          let (line, pp, cp) ← moveString fuel line start start
          let c ← (line)[cp]?
          if c = NUL then word fuel ⟨line, cp, argv'⟩
          else
            let line ← (if pp ≠ cp then put line pp NUL else some line)
            let line ← put line cp NUL
            some ⟨line, cp + 1, argv'⟩) := by
      rintro _ _ rfl rfl
      rw [word]
      simp only [s, ahead.get, Option.bind_eq_bind, Option.bind_some]
      rw [if_neg notNul, if_neg notSpace, if_neg notSemi, if_pos isQuote]
    by_cases room : argv.length < maxArgv
    · -- the argument is moved behind the quote
      have last : s.argv.getLast? = some cp := by simp [s, room]
      have moved := unfolded (argv ++ [cp + 1]) (cp + 1) (by rw [if_pos last]; simp [s, room]) (by rw [if_pos last])
      have length : (argv ++ [cp + 1]).length = n := by simp [n, room]
      have string : stepBetween argv.length c = .inString (argv.length + 1) := by
        simp [stepBetween, isQuote, room, show quote ≠ ' ' by decide, show quote ≠ ';' by decide]
      have nIs : n = argv.length + 1 := by simp [n, room]
      have formed := @wellFormed_inString t (argv.length + 1) false
      have wordsIs := @words_inString t (cp + 1) (argv.length + 1) false
      simp only [Bool.false_eq_true, if_false] at formed wordsIs
      have moves := @moveString_spec line t (cp + 1) (cp + 1) fuel false ahead.next le_rfl (by omega)
      simp only [Bool.false_eq_true, if_false] at moves
      cases closes : closing false t with
      | none =>
        simp only [closes] at moves formed
        exact .inl ⟨by rw [moved, moves]; rfl, by rw [string, formed]⟩
      | some r =>
        cases r with
        | none =>
          simp only [closes] at moves formed wordsIs
          obtain ⟨line', pp', run, ahead', kept⟩ := moves
          refine .inr ⟨⟨line', cp + 1 + t.length, argv ++ [cp + 1]⟩, [], ?_, length, fun i mem =>
            by simp [mem], ?_,
            ⟨ahead', by simp, by dsimp only; omega, ?_, ?_⟩, ?_, fun _ plainC => absurd plainC (by simp [notPlain])⟩
          · obtain ⟨fuel, rfl⟩ : ∃ k, fuel = k + 1 := ⟨fuel - 1, by omega⟩
            rw [moved, run]
            simp only [Option.bind_eq_bind, Option.bind_some, ahead'.get_end, if_true]
            rw [word]
            simp only [ahead'.get_end, Option.bind_eq_bind, Option.bind_some, if_true]
          · intro i mem
            dsimp only at mem ⊢
            rcases mem_append.mp mem with before | here
            · have := old i before
              omega
            · obtain rfl := mem_singleton.mp here
              simp only [and_true]
              omega
          · rw [string, formed]
            simp [wellFormed, ends, ne_of_gt positive]
          · rw [string, wordsIs]
            rfl
          · exact (Kept.refl (k := cp)).trans kept (le_succ _)
        | some rest =>
          simp only [closes] at moves formed wordsIs
          obtain ⟨line', pp', cp', run, ahead', left, right, further, kept⟩ := moves
          have notEnd : quote ≠ NUL := by decide
          have lengths : cp + 1 + t.length = cp' + 1 + rest.length := by
            have := ahead'.length
            have := ahead.length
            have := kept.length
            simp only [length_cons] at *
            omega
          set line₁ := if pp' ≠ cp' then line'.set pp' NUL else line' with line₁_def
          have ahead₁ : Ahead line₁ cp' (quote :: rest) := by
            rw [line₁_def]
            split
            · exact ahead'.set (by omega)
            · exact ahead'
          have kept₁ : Kept (cp + 1) line' line₁ := by
            rw [line₁_def]
            split
            · exact .set (by omega)
            · exact .refl
          have puts : (if pp' ≠ cp' then put line' pp' NUL else some line') = some line₁ := by
            rw [line₁_def]
            split
            · exact ahead'.put right
            · rfl
          refine .inr ⟨⟨line₁.set cp' NUL, cp' + 1, argv ++ [cp + 1]⟩, rest, ?_, length, fun i mem =>
            by simp [mem], ?_,
            ⟨ahead₁.next.set (lt_succ_self _), by omega, by dsimp only; omega, ?_, ?_⟩, ?_, fun _ plainC =>
              absurd plainC (by simp [notPlain])⟩
          · rw [moved, run]
            simp only [Option.bind_eq_bind, Option.bind_some, ahead'.get, notEnd, if_false, puts,
              ahead₁.put le_rfl]
          · intro i mem
            dsimp only at mem ⊢
            rcases mem_append.mp mem with before | here
            · have := old i before
              omega
            · obtain rfl := mem_singleton.mp here
              omega
          · rw [string, formed, nIs]
          · rw [string, wordsIs, nIs]
            rw [show cp + 1 + (t.length - rest.length) = cp' + 1 by omega]
          · exact (Kept.refl (k := cp)).trans ((kept.trans kept₁ le_rfl).trans (.set further) le_rfl) (le_succ _)
    · -- the quote ends a word of no characters
      have argvIs : s.argv = argv := by simp [s, room]
      have notLast : s.argv.getLast? ≠ some cp := fun last => by
        rw [argvIs] at last
        have := old _ (mem_of_getLast? last)
        omega
      have stays : moveString fuel line cp cp = some (line, cp, cp) := by
        obtain ⟨fuel, rfl⟩ : ∃ k, fuel = k + 1 := ⟨fuel - 1, by omega⟩
        rw [moveString, ahead.get]
        simp [isQuote]
      have moved := unfolded argv cp (by rw [if_neg notLast, argvIs]) (by rw [if_neg notLast])
      have nIs : n = argv.length := by simp [n, room]
      have string : stepBetween argv.length c = .between argv.length := by
        simp [stepBetween, isQuote, room, show quote ≠ ' ' by decide, show quote ≠ ';' by decide]
      refine .inr ⟨⟨line.set cp NUL, cp + 1, argv⟩, t, ?_, nIs.symm, fun _ mem => mem, fun i mem => ?_,
        ⟨ahead.next.set (lt_succ_self _), le_rfl, le_rfl, by rw [string, nIs], by rw [string, nIs]⟩,
        .set le_rfl, fun less => absurd less room⟩
      · rw [moved, stays]
        simp only [Option.bind_eq_bind, Option.bind_some, ahead.get, notNul, if_false, ne_eq, not_true_eq_false,
          ahead.put le_rfl]
      · exact .inl (lt_succ_of_lt (old i mem))
  · have isPlain : plain c = true := by simp [plain, notSpace, notSemi, isQuote]
    have string : stepBetween argv.length c = .inWord n := by
      simp [stepBetween, notSpace, notSemi, isQuote, n]
    have older : ∀ i ∈ s.argv, i < cp + 1 := fun i mem => by
      by_cases room : argv.length < maxArgv
      · rw [show s.argv = argv ++ [cp] by simp [s, room]] at mem
        rcases mem_append.mp mem with before | here
        · have := old i before
          omega
        · obtain rfl := mem_singleton.mp here
          omega
      · rw [show s.argv = argv by simp [s, room]] at mem
        have := old i mem
        omega
    have step : word (fuel + 1) s = word fuel { s with cp := cp + 1 } := by
      rw [word]
      simp only [s, ahead.get, Option.bind_eq_bind, Option.bind_some]
      rw [if_neg notNul, if_neg notSpace, if_neg notSemi, if_neg isQuote]
    obtain ⟨s', t', run, same, ends, kept, spelled⟩ :=
      @word_rest t n fuel { s with cp := cp + 1 } positive ahead.next older (by omega)
    have length : s'.argv.length = n := by
      rw [same]
      by_cases room : argv.length < maxArgv <;> simp [s, n, room]
    have further := ends.further
    refine .inr ⟨s', t', step.trans run, length, fun i mem => ?_, fun i mem => ?_, ?_, ?_, fun room _ =>
      ⟨?_, ?_⟩⟩
    · rw [same]
      by_cases room : argv.length < maxArgv <;> simp [s, room, mem]
    · rw [same] at mem
      have := older i mem
      dsimp only at further
      omega
    · rw [string]
      exact ⟨ends.ahead, ends.shorter, ends.further, ends.same, ends.found⟩
    · exact (Kept.refl (k := cp)).trans kept (le_succ _)
    · rw [same]
      simp [s, room]
    · obtain ⟨letters, place, closed, pending⟩ := spelled
      rw [takeWhile_cons, isPlain, if_pos rfl]
      have first : s'.line[cp]? = some c := by
        rw [kept.same _ (lt_succ_self _)]
        exact ahead.get
      dsimp only at letters place closed pending
      refine ⟨fun j less => ?_, by rw [length_cons]; omega, fun before => ?_, fun here => pending ?_⟩
      · cases j with
        | zero => simpa using first
        | succ j =>
          have := letters j (by rw [length_cons] at less; omega)
          rwa [show cp + (j + 1) = cp + 1 + j by omega, getElem?_cons_succ]
      · rw [length_cons] at before ⊢
        have := closed (by omega)
        rwa [show cp + ((t.takeWhile plain).length + 1) = cp + 1 + (t.takeWhile plain).length by omega]
      · rw [length_cons] at here
        omega

theorem skipSpaces_spec (ahead : Ahead line cp t) (enough : t.length < fuel) :
    ∃ cp' t', skipSpaces fuel line cp = some cp' ∧ Ahead line cp' t' ∧ cp ≤ cp' ∧ t'.length ≤ t.length ∧
      (∀ c r, t' = c :: r → c ≠ ' ') ∧ (cp < cp' → ∃ r, t = ' ' :: r) ∧
        wellFormed (.between n) t = wellFormed (.between n) t' ∧
      words (.between n) cp t = words (.between n) cp' t' := by
  induction t generalizing cp fuel with
  | nil =>
    obtain ⟨fuel, rfl⟩ : ∃ k, fuel = k + 1 := ⟨fuel - 1, by omega⟩
    refine ⟨cp, [], ?_, ahead, le_rfl, le_rfl, by simp, fun less => absurd less (lt_irrefl _), rfl,
      rfl⟩
    rw [skipSpaces, ahead.get_end]
    simp [show NUL ≠ ' ' by decide]
  | cons c t ih =>
    obtain ⟨fuel, rfl⟩ : ∃ k, fuel = k + 1 := ⟨fuel - 1, by omega⟩
    rw [length_cons] at enough
    by_cases space : c = ' '
    · subst space
      obtain ⟨cp', t', skips, ahead', further, shorter, head, _, formed, found⟩ :=
        ih ahead.next (lt_of_succ_lt_succ enough)
      refine ⟨cp', t', ?_, ahead', by omega, by rw [length_cons]; omega, head, fun _ => ⟨t, rfl⟩, ?_, ?_⟩
      · rw [skipSpaces, ahead.get]
        simpa using skips
      · rw [← formed]
        simp [wellFormed, step, stepBetween]
      · rw [← found]
        simp [words, step, stepBetween, plain]
    · refine ⟨cp, c :: t, ?_, ahead, le_rfl, le_rfl, ?_, fun less => absurd less (lt_irrefl _),
      rfl, rfl⟩
      · rw [skipSpaces, ahead.get]
        simp [space]
      · rintro d r same rfl
        exact space (cons.inj same).1

/-- The words of a command that have been read so far. -/
def Read (s : Scan) (t : List Char)
    (w : Nat × List Char) : Prop := w.1 ∈ s.argv ∧ NUL ∉ w.2 ∧ Spelled s.line w.1 w.2 s.cp t

/-- What `scan` does with the rest of a command, after the words in `old`. -/
def Scans (s : Scan) (t : List Char) (old : Nat × List Char → Prop) (r : Option (Scan × Bool)) : Prop :=
  match r with
  | none => wellFormed (.between s.argv.length) t = false
  | some (s', semi) => s'.argv.length ≤ maxArgv ∧ s'.line.length = s.line.length ∧ (∀ i ∈ s'.argv, i ≤ s'.cp) ∧
      if semi then ∃ r, Ahead s'.line (s'.cp + 1) r ∧ r.length < t.length ∧
        wellFormed (.between s.argv.length) t = (decide (s'.argv ≠ []) && wellFormed .fresh r) ∧
        ∀ w, old w ∨ w ∈ words (.between s.argv.length) s.cp t →
          w.1 ∈ s'.argv ∧ stringAt s'.line w.1 = some w.2 ∨ w ∈ words .fresh (s'.cp + 1) r
      else Ahead s'.line s'.cp [] ∧ wellFormed (.between s.argv.length) t = decide (s'.argv ≠ []) ∧
        ∀ w, old w ∨ w ∈ words (.between s.argv.length) s.cp t → w.1 ∈ s'.argv ∧ stringAt s'.line w.1 = some w.2

theorem Read.string {w : Nat × List Char} (read : Read s t w)
    (ends : w.1 + w.2.length = s.cp → s.line[s.cp]? = some NUL) :
    stringAt s.line w.1 = some w.2 := by
  obtain ⟨_, text, letters, place, closed, _⟩ := read
  refine stringAt_eq letters ?_ text
  by_cases here : w.1 + w.2.length = s.cp
  · rw [here]
    exact ends here
  · exact closed (by omega)

theorem Scans.weaken {old' : Nat × List Char → Prop} {t' : List Char} {r : Option (Scan × Bool)}
    (scans : Scans s' t' old' r)
    (length : s'.line.length = s.line.length) (shorter : t'.length ≤ t.length)
    (formed : wellFormed (.between s.argv.length) t = wellFormed (.between s'.argv.length) t')
    (covers : ∀ w, old w ∨ w ∈ words (.between s.argv.length) s.cp t → old' w ∨
      w ∈ words (.between s'.argv.length) s'.cp t') :
    Scans s t old r := by
  match r with
  | none => exact formed.trans scans
  | some (s'', true) =>
    obtain ⟨few, same, behind, r, ahead, less, both, found⟩ := scans
    exact ⟨few, same.trans length, behind, r, ahead, by omega, formed.trans both, fun w either =>
      found w (covers w either)⟩
  | some (s'', false) =>
    obtain ⟨few, same, behind, ahead, both, found⟩ := scans
    exact ⟨few, same.trans length, behind, ahead, formed.trans both, fun w either => found w (covers w either)⟩

theorem Read.skip {w : Nat × List Char} {t' : List Char} (read : Read s t w) (le : s.cp ≤ cp)
    (same : s.cp = cp → t' = t)
    (moved : s.cp < cp → ∃ r, t = ' ' :: r) : Read { s with cp := cp } t' w := by
  obtain ⟨argument, text, letters, place, closed, pending⟩ := read
  have before : s.cp < cp → w.1 + w.2.length < s.cp := fun less => by
    by_contra here
    obtain ⟨r, rfl⟩ := moved less
    rcases pending (by omega) with none' | ⟨r', semi⟩
    · simp at none'
    · exact absurd (cons.inj semi).1 (by decide)
  refine ⟨argument, text, letters, by dsimp only; omega, fun less => ?_, fun here => ?_⟩
  · by_cases further : s.cp < cp
    · exact closed (before further)
    · exact closed (by dsimp only at less; omega)
  · have notFurther : ¬s.cp < cp := fun further => by
      have := before further
      dsimp only at here
      omega
    rw [same (by omega)]
    exact pending (by dsimp only at here; omega)

theorem scan_spec {old : Nat × List Char → Prop} (ahead : Ahead s.line s.cp t) (few : s.argv.length ≤ maxArgv)
    (behind : Behind s.argv s.cp t) (read : ∀ w, old w → Read s t w) (enough : t.length + 1 < fuel) :
    Scans s t old (scan fuel s) := by
  induction size : t.length using Nat.strong_induction_on generalizing s t fuel old with
  | _ size ih =>
    subst size
    obtain ⟨fuel, rfl⟩ : ∃ k, fuel = k + 1 := ⟨fuel - 1, by omega⟩
    cases t with
    | nil =>
      have run : scan (fuel + 1) s = some (s, false) := by
        rw [scan, ahead.get_end]
        simp
      rw [run]
      refine ⟨few, rfl, fun i mem => ?_, ahead, by simp [wellFormed, ends], ?_⟩
      · rcases behind i mem with before | ⟨here, _⟩ <;> omega
      · rintro w (isOld | isNew)
        · exact ⟨(read w isOld).1, (read w isOld).string fun _ => ahead.get_end⟩
        · simp [words] at isNew
    | cons c t =>
      rw [length_cons] at enough
      obtain ⟨cp, t', skips, ahead', further, shorter, head, moved, formed, found⟩ :=
        @skipSpaces_spec s.line (c :: t) s.cp s.argv.length fuel ahead (by rw [length_cons]; omega)
      have notNul := ahead.ne_nul
      have older : ∀ i ∈ s.argv, i < cp := fun i mem => by
        rcases behind i mem with before | ⟨_, none'⟩
        · omega
        · simp at none'
      have readHere : ∀ w, old w → Read { s with cp := cp } t' w := fun w isOld =>
        (read w isOld).skip further (fun same => by subst same; exact ahead'.unique ahead) moved
      -- it is enough to look behind the blanks
      refine Scans.weaken (show Scans { s with cp := cp } t' old _ from ?_) rfl shorter formed fun w either =>
        either.imp_right fun isNew => found ▸ isNew
      have start : scan (fuel + 1) s = (do
          let c ← s.line[cp]?
          if c = NUL then some ({ s with cp := cp }, false)
          else if c = ';' then
            let line ← put s.line cp NUL
            some (⟨line, cp, s.argv⟩, true)
          else
            let s ← word fuel ⟨s.line, cp, if s.argv.length < maxArgv then s.argv ++ [cp] else s.argv⟩
            scan fuel s) := by
        rw [scan, ahead.get]
        simp only [Option.bind_eq_bind, Option.bind_some, skips]
        rw [if_neg notNul]
      rw [start]
      cases t' with
      | nil =>
        simp only [ahead'.get_end, Option.bind_eq_bind, Option.bind_some, if_true]
        refine ⟨few, rfl, fun i mem => le_of_lt (older i mem), ahead', by simp [wellFormed, ends], ?_⟩
        rintro w (isOld | isNew)
        · exact ⟨(readHere w isOld).1, (readHere w isOld).string fun _ => ahead'.get_end⟩
        · simp [words] at isNew
      | cons d r =>
        have notNul' := ahead'.ne_nul
        have notSpace := head d r rfl
        simp only [length_cons] at shorter
        simp only [ahead'.get, Option.bind_eq_bind, Option.bind_some]
        rw [if_neg notNul']
        by_cases semi : d = ';'
        · subst semi
          rw [if_pos rfl, ahead'.put le_rfl]
          have terminated : (s.line.set cp NUL)[cp]? = some NUL := by
            have := ahead'.length
            rw [getElem?_set_self (by omega)]
          refine ⟨few, length_set .., fun i mem => le_of_lt (older i mem), r,
            ahead'.next.set (lt_succ_self _), by simp, ?_, ?_⟩
          · by_cases none' : s.argv = []
            · simp [wellFormed, step, none']
            · have some' : s.argv.length ≠ 0 := by simpa using none'
              simp [wellFormed, step, stepBetween, none']
          · rintro w (isOld | isNew)
            · refine .inl ⟨(readHere w isOld).1, ?_⟩
              obtain ⟨_, text, spelled⟩ := readHere w isOld
              have later : Spelled (s.line.set cp NUL) w.1 w.2 (cp + 1) [] :=
                spelled.keep (.set le_rfl) (lt_succ_self _) fun _ => terminated
              exact stringAt_eq later.letters (later.closed (by have := spelled.place; dsimp only at this; omega)) text
            · right
              by_cases none' : s.argv.length = 0
              · simp [words, step, none', plain] at isNew
              · simpa [words, step, stepBetween, none', plain, show ';' ≠ quote by decide] using isNew
        · rw [if_neg semi]
          have formed' : wellFormed (.between s.argv.length) (d :: r) =
            wellFormed (stepBetween s.argv.length d) r := by
            simp [wellFormed, step, semi]
          have found' : words (.between s.argv.length) cp (d :: r) =
              (if decide (s.argv.length < maxArgv) && plain d then [(cp, (d :: r).takeWhile plain)] else []) ++
                words (stepBetween s.argv.length d) (cp + 1) r := by
            simp [words, step, semi, atStart]
          rcases word_start ahead' older notSpace semi (show r.length + 1 < fuel by omega) with
            ⟨faults, bad⟩ | ⟨s', t', run, length, keeps, behind', ends, kept, recorded⟩
          · rw [faults]
            exact formed'.trans bad
          · rw [run]
            have longer : s'.argv.length ≤ maxArgv := by
              rw [length]
              split <;> omega
            have short := ends.shorter
            have below : cp < s'.cp := ends.further
            set here : Nat × List Char → Prop := fun w => old w ∨
              (s.argv.length < maxArgv ∧ plain d = true) ∧ w = (cp, (d :: r).takeWhile plain)
            have readOn : ∀ w, here w → Read s' t' w := by
              rintro w (isOld | ⟨⟨room, isPlain⟩, rfl⟩)
              · obtain ⟨argument, text, spelled⟩ := readHere w isOld
                refine ⟨keeps _ argument, text, spelled.keep kept below fun at' => ?_⟩
                rcases spelled.pending at' with none' | ⟨r', isSemi⟩
                · simp at none'
                · exact absurd (cons.inj isSemi).1 semi
              · obtain ⟨argument, spelled⟩ := recorded room isPlain
                exact ⟨argument, fun inside => ahead'.text (takeWhile_subset _ inside), spelled⟩
            refine Scans.weaken (ih t'.length (by rw [length_cons]; omega) ends.ahead longer behind' readOn
              (by omega) rfl) kept.length (by rw [length_cons]; omega) ?_ fun w either => ?_
            · rw [formed', ends.same, length]
            · rcases either with isOld | isNew
              · exact .inl (.inl isOld)
              · rw [found', ends.found] at isNew
                rcases mem_append.mp isNew with first | rest
                · by_cases starts : (decide (s.argv.length < maxArgv) && plain d) = true
                  · rw [if_pos starts] at first
                    obtain rfl := mem_singleton.mp first
                    exact .inl (.inr ⟨by simpa using starts, rfl⟩)
                  · rw [if_neg starts] at first
                    simp at first
                · rw [length]
                  exact .inr rest

/-- What the calls of `parse` for one line give. -/
def Served (cp : Nat) (t : List Char) (ps : List Parsed) : Prop :=
  (∀ p ∈ ps, p.argv ≠ [] ∧ p.argv.length ≤ maxArgv ∧ ∀ i ∈ p.argv, (stringAt p.line i).isSome) ∧
    ∀ w ∈ words .fresh cp t, ∃ p ∈ ps, w.1 ∈ p.argv ∧ stringAt p.line w.1 = some w.2

/-- A line that is well formed is served; any other is not split, or in one call `argv[0]` is not set. -/
theorem commands_spec (ahead : Ahead line cp t) (enough : t.length + 2 < fuel) :
    if wellFormed .fresh t then ∃ ps, commands fuel line cp = some (ps, cp + t.length) ∧ Served cp t ps
    else commands fuel line cp = none ∨ ∃ ps stop, commands fuel line cp = some (ps, stop) ∧ ∃ p ∈ ps, p.argv = [] := by
  induction size : t.length using Nat.strong_induction_on generalizing line cp t fuel with
  | _ size ih =>
    subst size
    obtain ⟨fuel, rfl⟩ : ∃ k, fuel = k + 1 := ⟨fuel - 1, by omega⟩
    cases t with
    | nil =>
      rw [if_pos (show wellFormed .fresh [] = true from rfl)]
      refine ⟨[], ?_, by simp, by simp [words]⟩
      rw [commands, ahead.string]
      simp
    | cons c t =>
      have start : commands (fuel + 1) line cp = (do
          let p ← parse fuel line cp
          let (ps, stop) ← commands fuel p.line p.next
          some (p :: ps, stop)) := by
        rw [commands, ahead.string]
        simp
      have formed : wellFormed .fresh (c :: t) = wellFormed (.between 0) (c :: t) := by
        by_cases semi : c = ';' <;> simp [wellFormed, step, semi]
      have found : words .fresh cp (c :: t) = words (.between 0) cp (c :: t) := by
        by_cases semi : c = ';' <;> simp [words, step, semi, atStart, maxArgv]
      have scans := @scan_spec (c :: t) fuel ⟨line, cp, []⟩ (fun _ =>
        False) ahead (by simp) (by simp [Behind]) (by simp) (by omega)
      have length := ahead.length
      cases run : scan fuel ⟨line, cp, []⟩ with
      | none =>
        rw [run] at scans
        have bad : wellFormed .fresh (c :: t) = false := formed.trans scans
        rw [bad]
        left
        rw [start, parse, run]
        rfl
      | some r =>
        obtain ⟨s, semi⟩ := r
        rw [run] at scans
        cases semi with
        | false =>
          obtain ⟨few, same, behind, ahead', exactly, strings⟩ := scans
          have length' := ahead'.length
          simp only [length_cons, length_nil] at length length' same
          have parses : parse fuel line cp = some ⟨s.line, s.cp, s.argv⟩ := by
            rw [parse, run]
            rfl
          obtain ⟨fuel, rfl⟩ : ∃ k, fuel = k + 1 := ⟨fuel - 1, by omega⟩
          have stops : commands (fuel + 1) s.line s.cp = some ([], s.cp) := by
            rw [commands, ahead'.string]
            simp
          have done : commands (fuel + 1 + 1) line cp = some ([⟨s.line, s.cp, s.argv⟩], s.cp) := by
            rw [start, parses]
            simp [stops]
          rw [formed, show wellFormed (.between 0) (c :: t) = decide (s.argv ≠ []) from exactly]
          by_cases none' : s.argv = []
          · rw [if_neg (by simp [none'])]
            exact .inr ⟨_, _, done, _, mem_singleton_self _, none'⟩
          · rw [if_pos (by simp [none'])]
            refine ⟨_, by rw [done, show s.cp = cp + (c :: t).length by rw [length_cons]; omega], ?_, ?_⟩
            · intro p mem
              obtain rfl := mem_singleton.mp mem
              exact ⟨none', few, fun i there => ahead'.isSome (by have := behind i there; simpa using this)⟩
            · intro w mem
              rw [found] at mem
              exact ⟨_, mem_singleton_self _, strings w (.inr mem)⟩
        | true =>
          obtain ⟨few, same, behind, r, ahead', shorter, exactly, strings⟩ := scans
          have length' := ahead'.length
          simp only [length_cons] at length shorter enough
          have parses : parse fuel line cp = some ⟨s.line, s.cp + 1, s.argv⟩ := by
            rw [parse, run]
            rfl
          have later := ih r.length (by rw [length_cons]; omega) ahead' (show r.length + 2 < fuel by omega) rfl
          rw [formed, show wellFormed (.between 0) (c :: t) =
            (decide (s.argv ≠ []) && wellFormed .fresh r) from exactly]
          by_cases none' : s.argv = []
          · rw [if_neg (by simp [none'])]
            cases rest : commands fuel s.line (s.cp + 1) with
            | none =>
              left
              rw [start, parses]
              simp [rest]
            | some q =>
              refine .inr ⟨⟨s.line, s.cp + 1, s.argv⟩ :: q.1, q.2, ?_, _, mem_cons_self .., none'⟩
              rw [start, parses]
              simp [rest]
          · by_cases good : wellFormed .fresh r = true
            · rw [if_pos good] at later
              obtain ⟨ps, run', served, wordsServed⟩ := later
              rw [if_pos (by simp [none', good])]
              refine ⟨⟨s.line, s.cp + 1, s.argv⟩ :: ps, ?_, ?_, ?_⟩
              · rw [start, parses]
                simp only [Option.bind_eq_bind, Option.bind_some, run']
                rw [show s.cp + 1 + r.length = cp + (c :: t).length by rw [length_cons]; simp only at same; omega]
              · intro p mem
                rcases mem_cons.mp mem with rfl | there
                · refine ⟨none', few, fun i inside => ?_⟩
                  exact ahead'.isSome (by have := behind i inside; omega)
                · exact served p there
              · intro w mem
                rw [found] at mem
                rcases strings w (.inr mem) with here | further
                · exact ⟨_, mem_cons_self .., here⟩
                · obtain ⟨p, there, is⟩ := wordsServed w further
                  exact ⟨p, mem_cons_of_mem _ there, is⟩
            · rw [if_neg good] at later
              rw [if_neg (by simp [good])]
              rcases later with faults | ⟨ps, stop, run', p, mem, unset⟩
              · left
                rw [start, parses]
                simp [faults]
              · right
                refine ⟨⟨s.line, s.cp + 1, s.argv⟩ :: ps, stop, ?_, p, mem_cons_of_mem _ mem, unset⟩
                rw [start, parses]
                simp [run']

theorem wellFormed_of_splits (noNul : NUL ∉ t) (splits : Splits t) : wellFormed .fresh t = true := by
  obtain ⟨fuel, ps, run, good, _⟩ := splits
  by_contra bad
  have spec := @commands_spec (t ++ [NUL]) t 0 (max fuel (t.length + 3)) ⟨by simp, noNul⟩ (by omega)
  rw [if_neg bad, commands_mono (le_max_left ..) run] at spec
  rcases spec with faults | ⟨ps', stop, same, p, mem, unset⟩
  · cases faults
  · obtain ⟨rfl, _⟩ := Prod.mk.inj (Option.some.inj same)
    exact (good p mem).1 unset

/-- A line is split within its bounds if and only if no command is blank and no backslash in a string ends the line.
-/
theorem parse_splits (text : List Char) (noNul : NUL ∉ text) : Splits text ↔ wellFormed .fresh text = true := by
  refine ⟨wellFormed_of_splits noNul, fun good => ?_⟩
  have spec := @commands_spec (text ++ [NUL]) text 0 (text.length + 3) ⟨by simp, noNul⟩ (by omega)
  rw [if_pos good] at spec
  obtain ⟨ps, run, served⟩ := spec
  rw [Nat.zero_add] at run
  exact ⟨_, ps, run, served⟩

/-- Two commands, with a word and a string. -/
theorem parse_splits_two : Splits ['g', 'o', ';', 'x', ' ', quote, 'a', backslash, quote, 'b', quote] :=
  (parse_splits _ (by decide)).mpr (by decide)

/-- A backslash at the end of a string that is not closed. -/
theorem parse_past_end : NUL ∉ [quote, backslash] ∧ ¬Splits [quote, backslash] :=
  ⟨by decide, fun splits => absurd (wellFormed_of_splits (by decide) splits) (by decide)⟩

end Ecos.Redboot.Parse
