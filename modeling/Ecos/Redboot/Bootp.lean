import Mathlib

namespace Ecos.Redboot.Bootp
open List Option

def tagPad : UInt8 := 0
def tagSubnetMask : UInt8 := 1
def tagGateway : UInt8 := 3
def tagDomainServer : UInt8 := 6
def tagDhcpMessType : UInt8 := 53
def tagEnd : UInt8 := 255
def bootReply : UInt8 := 2
def dhcpCookie : List UInt8 := [99, 130, 83, 99]

/-- `CYGSEM_REDBOOT_NETWORKING_USE_GATEWAY` and `CYGPKG_REDBOOT_NETWORKING_DNS`. -/
structure Options where
  useGateway : Bool
  dns : Bool

/-- The memory from `__local_enet_addr` on, and `xid`. -/
structure Host where
  enetAddr : Nat → UInt8
  xid : List UInt8

/-- `__local_ip_addr`, `__local_ip_gate`, `__local_ip_mask` and `__bootp_dns_addr`, as far as they have been set. -/
structure Config where
  addr : List UInt8
  gate : Option (List UInt8)
  mask : Option (List UInt8)
  dnsAddr : Option (List UInt8)

/-- Bytes of the packet for `memcmp` or `memcpy`, which take all of them; `none` if one is behind the end of the
packet. -/
def bytes (buf : List UInt8) (i n : Nat) : Option (List UInt8) :=
  if n = 0 ∨ i + n ≤ buf.length then some ((buf.drop i).take n) else none

/-- The first tests of `bootp_handler`: a reply, to this host, with its transaction. -/
def accepts (me : Host) (buf : List UInt8) : Option Bool := do
  let op ← buf[0]?
  if op ≠ bootReply then some false
  else
    let hlen ← buf[2]?
    let chaddr ← bytes buf 28 hlen.toNat
    if chaddr ≠ (List.range hlen.toNat).map me.enetAddr then some false
    else
      let xid ← bytes buf 4 4
      some (decide (xid = me.xid))

/-- The loop of `bootp_handler` from a position on: `type`, and the options it has come to, with their positions. -/
def messLoop (buf : List UInt8) : Nat → Nat → Option (Int × List (Nat × UInt8))
  | 0, _ => none
  | fuel + 1, p =>
    if p < buf.length then do
      let tag ← buf[p]?
      if tag = tagDhcpMessType then
        let type ← buf[p + 2]?
        some (type.toNat, [(p, tag)])
      else
        let n ← buf[p + 1]?
        let (type, seen) ← messLoop buf fuel (p + n.toNat + 2)
        some (type, (p, tag) :: seen)
    else some (-1, [])

/-- How `bootp_handler` determines the type of a message. -/
def messType (buf : List UInt8) : Option (Int × List (Nat × UInt8)) := do
  let cookie ← bytes buf 236 4
  if cookie = dhcpCookie then messLoop buf buf.length 240 else some (-1, [])

/-- The cases of the `switch` of `parseConfig`, for the option whose value is at a position. -/
def setOption (o : Options) (buf : List UInt8) (tag : UInt8) (p : Nat) (c : Config) : Option Config :=
  if o.useGateway ∧ tag = tagSubnetMask then (bytes buf p 4).map fun b => { c with mask := some b }
  else if o.useGateway ∧ tag = tagGateway then (bytes buf p 4).map fun b => { c with gate := some b }
  else if o.dns ∧ tag = tagDomainServer then (bytes buf p 4).map fun b => { c with dnsAddr := some b }
  else some c

/-- The loop of `parseConfig`, with the options that it has come to. -/
def configLoop (o : Options) (buf : List UInt8) : Nat → Nat → Config → Option (Config × List (Nat × UInt8))
  | 0, _, _ => none
  | fuel + 1, p, c =>
    if p < buf.length then do
      let tag ← buf[p]?
      if tag = tagEnd then some (c, [])
      else if tag = tagPad then configLoop o buf fuel (p + 1) c
      else
        let optlen ← buf[p + 1]?
        let c ← setOption o buf tag (p + 2) c
        let (c, walked) ← configLoop o buf fuel (p + 2 + optlen.toNat) c
        some (c, (p, tag) :: walked)
    else some (c, [])

def parseConfig (o : Options) (buf : List UInt8) : Option (Config × List (Nat × UInt8)) := do
  let yiaddr ← bytes buf 16 4
  let giaddr ← (if o.useGateway then (bytes buf 24 4).map some else some none)
  let c : Config := ⟨yiaddr, giaddr, none, none⟩
  let cookie ← bytes buf 236 4
  if cookie = dhcpCookie then configLoop o buf buf.length 240 c else some (c, [])

/-- The options of a list by its format: a pad is one byte, the end tag ends the list, any other option has a length
and that many bytes. -/
def options : List UInt8 → List (UInt8 × List UInt8)
  | [] => []
  | [_] => []
  | tag :: n :: value =>
    if tag = tagEnd then []
    else if tag = tagPad then options (n :: value)
    else if n.toNat ≤ value.length then (tag, value.take n.toNat) :: options (value.drop n.toNat)
    else []
termination_by l => l.length
decreasing_by
  · simp
  · simp only [List.length_drop, List.length_cons]
    omega

/-- The first byte of the first option 53, -1 if there is no such option, `none` if it has no value. -/
def firstType (l : List (UInt8 × List UInt8)) : Option Int :=
  match l.find? fun x => x.1 = tagDhcpMessType with
  | none => some (-1)
  | some (_, []) => none
  | some (_, type :: _) => some type.toNat

/-- The options of a packet, in the format of such lists. -/
def optionsOf (buf : List UInt8) : List (UInt8 × List UInt8) :=
  if (buf.drop 236).take 4 = dhcpCookie then options (buf.drop 240) else []

/-- The options up to the first one of type 53. -/
def upToMessType : List (Nat × UInt8) → List (Nat × UInt8)
  | [] => []
  | x :: l => if x.2 = tagDhcpMessType then [x] else x :: upToMessType l

/-- A packet that is not ignored is read within its bounds, the type is that of its list of options, and both
functions come to the same options, as far as the first one goes. -/
def Agrees (o : Options) (me : Host) (buf : List UInt8) : Prop :=
  match accepts me buf with
  | none => False
  | some false => True
  | some true => ∃ type seen c walked, messType buf = some (type, seen) ∧ parseConfig o buf = some (c, walked) ∧
      some type = firstType (optionsOf buf) ∧ seen = upToMessType walked

/-- `parseConfig` takes four bytes for an option, whatever its length. -/
def Options.Copies (o : Options) (tag : UInt8) : Prop :=
  o.useGateway = true ∧ (tag = tagSubnetMask ∨ tag = tagGateway) ∨ o.dns = true ∧ tag = tagDomainServer

/-- A list of options that causes no trouble, before and behind the first option 53: no pad and no end before it, a
length behind each tag, four bytes where so many are taken, and an option 53 with a value. -/
inductive Plain (o : Options) : Bool → List UInt8 → Prop
  | done {behind : Bool} : Plain o behind []
  | pad {rest : List UInt8} : Plain o true rest → Plain o true (tagPad :: rest)
  | stop {rest : List UInt8} : Plain o true (tagEnd :: rest)
  | messType {n : UInt8} {value : List UInt8} : 0 < n.toNat → n.toNat ≤ value.length →
    Plain o true (value.drop n.toNat) →
      Plain o false (tagDhcpMessType :: n :: value)
  | option {behind : Bool} {tag n : UInt8} {value : List UInt8} : tag ≠ tagPad → tag ≠ tagEnd →
      (behind = false → tag ≠ tagDhcpMessType) → (o.Copies tag → 4 ≤ value.length) →
        Plain o behind (value.drop n.toNat) →
      Plain o behind (tag :: n :: value)

/-- The packet is long enough for what is looked at in its header, and if it is accepted, its options are plain. -/
def Sound (o : Options) (me : Host) (buf : List UInt8) : Prop :=
  0 < buf.length ∧ (buf.getD 0 0 = bootReply →
    2 < buf.length ∧ ((buf.getD 2 0).toNat = 0 ∨ 28 + (buf.getD 2 0).toNat ≤ buf.length) ∧
      ((buf.drop 28).take (buf.getD 2 0).toNat = (List.range (buf.getD 2 0).toNat).map me.enetAddr →
        8 ≤ buf.length ∧ ((buf.drop 4).take 4 = me.xid →
          240 ≤ buf.length ∧ ((buf.drop 236).take 4 = dhcpCookie → Plain o false (buf.drop 240)))))

variable {o : Options} {me : Host} {buf l value : List UInt8} {p i n fuel : Nat} {c : Config} {tag b : UInt8}

theorem bytes_some (inside : i + n ≤ buf.length) : bytes buf i n = some ((buf.drop i).take n) := by
  rw [bytes, if_pos (.inr inside)]

theorem bytes_none (positive : 0 < n) (outside : buf.length < i + n) : bytes buf i n = none := by
  rw [bytes, if_neg]
  omega

theorem get_of_drop {rest : List UInt8} (ahead : buf.drop p = b :: rest) : buf[p]? = some b ∧ buf.drop (p + 1) = rest ∧
    p < buf.length := by
  refine ⟨?_, ?_, ?_⟩
  · rw [← head?_drop, ahead]
    rfl
  · rw [← drop_drop, ahead]
    rfl
  · by_contra beyond
    rw [drop_eq_nil_of_le (by omega)] at ahead
    cases ahead

theorem length_of_drop (ahead : buf.drop p = l) (some' : l ≠ []) : buf.length = p + l.length := by
  have length := congrArg List.length ahead
  rw [length_drop] at length
  have : p < buf.length := by
    by_contra beyond
    rw [drop_eq_nil_of_le (by omega)] at ahead
    exact some' ahead.symm
  omega

theorem setOption_isSome : (∃ c', setOption o buf tag p c = some c') ↔ (o.Copies tag → p + 4 ≤ buf.length) := by
  have four : (∃ b, bytes buf p 4 = some b) ↔ p + 4 ≤ buf.length := by
    by_cases inside : p + 4 ≤ buf.length
    · simp [bytes_some inside, inside]
    · simp [bytes_none (by omega : 0 < 4) (by omega : buf.length < p + 4), inside]
  rw [← four, setOption, Options.Copies]
  by_cases mask : o.useGateway = true ∧ tag = tagSubnetMask
  · rw [if_pos mask]
    simp [mask, map_eq_some_iff]
  rw [if_neg mask]
  by_cases gate : o.useGateway = true ∧ tag = tagGateway
  · rw [if_pos gate]
    simp [gate, map_eq_some_iff]
  rw [if_neg gate]
  by_cases server : o.dns = true ∧ tag = tagDomainServer
  · rw [if_pos server]
    simp [server, map_eq_some_iff]
  rw [if_neg server]
  tauto

/-- The loop of `parseConfig` reads within the packet if and only if the options are plain. -/
theorem configLoop_isSome (enough : buf.length - p < fuel) :
    (∃ r, configLoop o buf fuel p c = some r) ↔ Plain o true (buf.drop p) := by
  induction fuel generalizing p c with
  | zero => omega
  | succ fuel ih =>
    rw [configLoop]
    cases ahead : buf.drop p with
    | nil =>
      have beyond : ¬p < buf.length := by
        have := congrArg List.length ahead
        simp only [length_drop, length_nil] at this
        omega
      rw [if_neg beyond]
      simp [Plain.done]
    | cons tag rest =>
      obtain ⟨get, ahead', less⟩ := get_of_drop ahead
      rw [if_pos less, get]
      simp only [bind_eq_bind, bind_some]
      by_cases isEnd : tag = tagEnd
      · subst isEnd
        simp [Plain.stop]
      rw [if_neg isEnd]
      by_cases isPad : tag = tagPad
      · subst isPad
        rw [if_pos rfl, ih (by omega), ahead']
        refine ⟨.pad, fun plain => ?_⟩
        cases plain with
        | pad plain => exact plain
        | option notPad => exact absurd rfl notPad
      rw [if_neg isPad]
      cases rest with
      | nil =>
        have none' : buf[p + 1]? = none := by
          rw [← head?_drop, ahead']
          rfl
        simp only [none', bind_none, reduceCtorEq, exists_false, false_iff]
        intro plain
        cases plain with
        | pad => exact isPad rfl
        | stop => exact isEnd rfl
      | cons n value =>
        obtain ⟨get', ahead'', _⟩ := get_of_drop ahead'
        have length := length_of_drop ahead (by simp)
        simp only [length_cons] at length
        simp only [get', bind_some]
        have further : buf.drop (p + 2 + n.toNat) = value.drop n.toNat := by
          rw [← drop_drop, show p + 2 = p + 1 + 1 from rfl, ahead'']
        have copied : (∃ c', setOption o buf tag (p + 2) c = some c') ↔ (o.Copies tag → 4 ≤ value.length) := by
          rw [setOption_isSome]
          exact forall_congr' fun _ => by omega
        constructor
        · rintro ⟨r, run⟩
          obtain ⟨c', sets, run⟩ := bind_eq_some_iff.mp run
          obtain ⟨r', goesOn, _⟩ := bind_eq_some_iff.mp run
          refine .option isPad isEnd (by simp) (copied.mp ⟨c', sets⟩) ?_
          rw [← further]
          exact (ih (by omega)).mp ⟨r', goesOn⟩
        · intro plain
          cases plain with
          | pad => exact absurd rfl isPad
          | stop => exact absurd rfl isEnd
          | option _ _ _ four plain =>
            obtain ⟨c', sets⟩ := copied.mpr four
            rw [← further] at plain
            obtain ⟨r', goesOn⟩ := (@ih (p + 2 + n.toNat) c' (by omega)).mpr plain
            simp only [sets, bind_some, goesOn]
            exact ⟨_, rfl⟩

theorem configLoop_behind {r : Config × List (Nat × UInt8)}
    (run : configLoop o buf fuel p c = some r) : ∀ x ∈ r.2, p ≤ x.1 := by
  induction fuel generalizing p c r with
  | zero => simp [configLoop] at run
  | succ fuel ih =>
    rw [configLoop] at run
    split at run
    · obtain ⟨tag, get, run⟩ := bind_eq_some_iff.mp run
      split at run
      · obtain rfl := some.inj run
        simp
      split at run
      · intro x mem
        have := ih run x mem
        omega
      obtain ⟨n, get', run⟩ := bind_eq_some_iff.mp run
      obtain ⟨c', sets, run⟩ := bind_eq_some_iff.mp run
      obtain ⟨r', goesOn, same⟩ := bind_eq_some_iff.mp run
      obtain rfl := some.inj same
      intro x mem
      rcases mem_cons.mp mem with rfl | later
      · exact Nat.le_refl _
      · have := ih goesOn x later
        omega
    · obtain rfl := some.inj run
      simp

theorem upToMessType_subset {l : List (Nat × UInt8)} {x : Nat × UInt8} (mem : x ∈ upToMessType l) : x ∈ l := by
  induction l with
  | nil => exact mem
  | cons y l ih =>
    rw [upToMessType] at mem
    split at mem
    · rw [mem_singleton.mp mem]
      exact mem_cons_self ..
    · rcases mem_cons.mp mem with rfl | later
      · exact mem_cons_self ..
      · exact mem_cons_of_mem _ (ih later)

/-- What the claim says about a list of options, from a position on. -/
def Walks (o : Options) (buf : List UInt8) (fuel p : Nat) (c : Config) : Prop :=
  ∃ type seen c' walked, messLoop buf fuel p = some (type, seen) ∧ configLoop o buf fuel p c = some (c', walked) ∧
    some type = firstType (options (buf.drop p)) ∧ seen = upToMessType walked

theorem messLoop_head {type : Int} {seen : List (Nat × UInt8)} (run : messLoop buf fuel p = some (type, seen))
    (get : buf[p]? = some tag) : (p, tag) ∈ seen := by
  cases fuel with
  | zero => simp [messLoop] at run
  | succ fuel =>
    rw [messLoop, if_pos (List.getElem?_eq_some_iff.mp get).1, get] at run
    simp only [bind_eq_bind, bind_some] at run
    split at run
    · obtain ⟨_, _, same⟩ := bind_eq_some_iff.mp run
      cases same
      exact mem_cons_self ..
    · obtain ⟨_, _, run⟩ := bind_eq_some_iff.mp run
      obtain ⟨_, _, same⟩ := bind_eq_some_iff.mp run
      cases same
      exact mem_cons_self ..

theorem options_messType {n : UInt8} : firstType (options (tagDhcpMessType :: n :: value)) =
    if n.toNat ≤ value.length then (value.take n.toNat).head?.map fun b => (b.toNat : Int) else some (-1) := by
  rw [options, if_neg (by decide), if_neg (by decide)]
  split
  · rw [firstType, find?_cons_of_pos (by simp)]
    cases value.take n.toNat <;> rfl
  · rfl

/-- At an option 53. -/
theorem walks_messType {rest : List UInt8} (enough : buf.length - p < fuel + 1)
    (ahead : buf.drop p = tagDhcpMessType :: rest) : Walks o buf (fuel + 1) p c ↔
      Plain o false (tagDhcpMessType :: rest) := by
  obtain ⟨get, ahead', less⟩ := get_of_drop ahead
  have second : buf[p + 2]? = rest.tail.head? := by
    rw [← head?_drop, show p + 2 = p + 1 + 1 from rfl, ← tail_drop, ahead']
  have reads : messLoop buf (fuel + 1) p = rest.tail.head?.map fun type =>
    ((type.toNat : Int), [(p, tagDhcpMessType)]) := by
    rw [messLoop, if_pos less, get, second]
    cases rest.tail.head? <;> rfl
  constructor
  · rintro ⟨type, seen, c', walked, mess, config, same, _⟩
    have plain := (configLoop_isSome enough).mp ⟨_, config⟩
    rw [reads] at mess
    obtain ⟨b, value, tail⟩ : ∃ b value, rest.tail = b :: value := by
      cases tail : rest.tail with
      | nil => simp [tail] at mess
      | cons b value => exact ⟨b, value, rfl⟩
    obtain ⟨n, rfl⟩ : ∃ n, rest = n :: b :: value := by
      cases rest with
      | nil => cases tail
      | cons n rest => exact ⟨n, congrArg _ tail⟩
    obtain ⟨rfl, -⟩ := Prod.mk.inj (some.inj mess)
    rw [ahead, options_messType] at same
    rw [ahead] at plain
    split at same
    · next inside =>
      refine .messType ?_ inside ?_
      · by_contra empty
        rw [show n.toNat = 0 by omega] at same
        cases same
      · cases plain with
        | option _ _ _ _ plain => exact plain
    · have := some.inj same
      omega
  · intro plain
    cases plain with
    | messType positive inside plain =>
      next n value =>
      have alsoPlain : Plain o true (buf.drop p) := by
        rw [ahead]
        exact .option (by decide) (by decide) (by simp) (fun copies => by simp [Options.Copies, tagDhcpMessType,
          tagSubnetMask, tagGateway, tagDomainServer] at copies) plain
      obtain ⟨⟨c', walked⟩, config⟩ := (@configLoop_isSome o buf p (fuel + 1) c enough).mpr alsoPlain
      cases value with
      | nil =>
        rw [length_nil] at inside
        omega
      | cons b value =>
        refine ⟨b.toNat, _, c', walked, reads, config, ?_, ?_⟩
        · rw [ahead, options_messType, if_pos inside]
          obtain ⟨k, next⟩ : ∃ k, n.toNat = k + 1 := ⟨n.toNat - 1, by omega⟩
          rw [next]
          rfl
        · rw [configLoop, if_pos less, get] at config
          simp only [bind_eq_bind, bind_some] at config
          rw [if_neg (by decide), if_neg (by decide)] at config
          obtain ⟨_, _, config⟩ := bind_eq_some_iff.mp config
          obtain ⟨_, _, config⟩ := bind_eq_some_iff.mp config
          obtain ⟨_, _, same⟩ := bind_eq_some_iff.mp config
          cases same
          rfl
    | option _ _ not53 => exact absurd rfl (not53 rfl)

theorem walks_option {n : UInt8} (ahead : buf.drop p = tag :: n :: value)
    (not53 : tag ≠ tagDhcpMessType) (notPad : tag ≠ tagPad) (notEnd : tag ≠ tagEnd) :
    Walks o buf (fuel + 1) p c ↔
      ∃ c', setOption o buf tag (p + 2) c = some c' ∧ Walks o buf fuel (p + 2 + n.toNat) c' := by
  obtain ⟨get, ahead', less⟩ := get_of_drop ahead
  obtain ⟨get', ahead'', _⟩ := get_of_drop ahead'
  have further : buf.drop (p + 2 + n.toNat) = value.drop n.toNat := by
    rw [← drop_drop, show p + 2 = p + 1 + 1 from rfl, ahead'']
  have equally : firstType (options (buf.drop p)) = firstType (options (buf.drop (p + 2 + n.toNat))) := by
    rw [ahead, further, options, if_neg notEnd, if_neg notPad]
    split
    · rw [firstType, find?_cons_of_neg (by simpa using not53)]
      rfl
    · rw [drop_eq_nil_of_le (by omega), options]
  rw [Walks, messLoop, configLoop, if_pos less, if_pos less, get, equally]
  simp only [bind_eq_bind, bind_some, get', if_neg not53, if_neg notPad, if_neg notEnd,
    show p + n.toNat + 2 = p + 2 + n.toNat by omega]
  constructor
  · rintro ⟨type, seen, c', walked, mess, config, same, alike⟩
    obtain ⟨⟨type₁, seen₁⟩, messRest, equal⟩ := bind_eq_some_iff.mp mess
    obtain ⟨rfl, rfl⟩ := Prod.mk.inj (some.inj equal)
    obtain ⟨c₁, sets, config⟩ := bind_eq_some_iff.mp config
    obtain ⟨⟨c₂, walked₁⟩, configRest, equal⟩ := bind_eq_some_iff.mp config
    obtain ⟨rfl, rfl⟩ := Prod.mk.inj (some.inj equal)
    rw [upToMessType, if_neg not53] at alike
    exact ⟨c₁, sets, _, seen₁, _, walked₁, messRest, configRest, same, (cons.inj alike).2⟩
  · rintro ⟨c₁, sets, type, seen, c', walked, mess, config, same, rfl⟩
    refine ⟨type, _, c', (p, tag) :: walked, by rw [mess]; rfl, by rw [sets, bind_some, config]; rfl, same, ?_⟩
    rw [upToMessType, if_neg not53]

/-- The two loops read within the packet, find the type and agree, if and only if the options are plain. -/
theorem walks_iff (enough : buf.length - p < fuel) : Walks o buf fuel p c ↔ Plain o false (buf.drop p) := by
  induction fuel generalizing p c with
  | zero => omega
  | succ fuel ih =>
    cases ahead : buf.drop p with
    | nil =>
      have beyond : ¬p < buf.length := by
        have := congrArg List.length ahead
        simp only [length_drop, length_nil] at this
        omega
      rw [Walks, messLoop, configLoop, if_neg beyond, if_neg beyond, ahead, options]
      exact ⟨fun _ => .done, fun _ => ⟨-1, [], c, [], rfl, rfl, rfl, rfl⟩⟩
    | cons tag rest =>
      obtain ⟨get, ahead', less⟩ := get_of_drop ahead
      by_cases is53 : tag = tagDhcpMessType
      · subst is53
        exact walks_messType enough ahead
      by_cases isEnd : tag = tagEnd
      · subst isEnd
        refine iff_of_false ?_ fun plain => ?_
        · rintro ⟨type, seen, c', walked, mess, config, _, alike⟩
          have found := messLoop_head mess get
          rw [configLoop, if_pos less, get] at config
          simp only [bind_eq_bind, bind_some, if_true, some.injEq, Prod.mk.injEq] at config
          rw [alike, ← config.2] at found
          cases found
        · cases plain with
          | option _ notEnd => exact notEnd rfl
      by_cases isPad : tag = tagPad
      · subst isPad
        refine iff_of_false ?_ fun plain => ?_
        · rintro ⟨type, seen, c', walked, mess, config, _, alike⟩
          have found := messLoop_head mess get
          rw [configLoop, if_pos less, get] at config
          rw [alike] at found
          have := configLoop_behind config _ (upToMessType_subset found)
          omega
        · cases plain with
          | option notPad => exact notPad rfl
      cases rest with
      | nil =>
        refine iff_of_false ?_ fun plain => ?_
        · rintro ⟨type, seen, c', walked, _, config, _⟩
          have plain := (configLoop_isSome enough).mp ⟨_, config⟩
          rw [ahead] at plain
          cases plain with
          | pad => exact isPad rfl
          | stop => exact isEnd rfl
        · cases plain
      | cons n value =>
        obtain ⟨_, ahead'', _⟩ := get_of_drop ahead'
        have further : buf.drop (p + 2 + n.toNat) = value.drop n.toNat := by
          rw [← drop_drop, show p + 2 = p + 1 + 1 from rfl, ahead'']
        have length := length_of_drop ahead (by simp)
        simp only [length_cons] at length
        rw [walks_option ahead is53 isPad isEnd]
        simp only [ih (show buf.length - (p + 2 + n.toNat) < fuel by omega), further]
        have copied : (∃ c', setOption o buf tag (p + 2) c = some c') ↔ (o.Copies tag → 4 ≤ value.length) := by
          rw [setOption_isSome]
          exact forall_congr' fun _ => by omega
        rw [exists_and_right, copied]
        refine ⟨fun ⟨four, plain⟩ => .option isPad isEnd (fun _ => is53) four plain, fun plain => ?_⟩
        cases plain with
        | messType => exact absurd rfl is53
        | option _ _ _ four plain => exact ⟨four, plain⟩

theorem reads_iff (enough : 240 ≤ buf.length) :
    (∃ type seen c walked, messType buf = some (type, seen) ∧ parseConfig o buf = some (c, walked) ∧
      some type = firstType (optionsOf buf) ∧ seen = upToMessType walked) ↔
        ((buf.drop 236).take 4 = dhcpCookie → Plain o false (buf.drop 240)) := by
  obtain ⟨c, config⟩ : ∃ c, parseConfig o buf = if (buf.drop 236).take 4 = dhcpCookie
      then configLoop o buf buf.length 240 c else some (c, []) := by
    rw [parseConfig, bytes_some (by omega), bytes_some (by omega), bytes_some (by omega)]
    cases o.useGateway with
    | true => exact ⟨_, rfl⟩
    | false => exact ⟨_, rfl⟩
  rw [config, messType, bytes_some enough, optionsOf]
  simp only [bind_eq_bind, bind_some]
  by_cases cookie : (buf.drop 236).take 4 = dhcpCookie
  · simp only [cookie, if_true, true_imp_iff]
    exact walks_iff (by omega)
  · simp only [cookie, if_false, false_imp_iff, iff_true]
    exact ⟨-1, [], c, [], rfl, rfl, rfl, rfl⟩

/-- `bootp_handler` takes the type from the options of a packet, `parseConfig` meets the same options, and both stay
within the packet, if and only if the packet is sound. -/
theorem dhcp_options (o : Options) (me : Host) (buf : List UInt8) : Agrees o me buf ↔ Sound o me buf := by
  rw [Agrees, Sound, accepts]
  by_cases some' : 0 < buf.length
  swap
  · rw [List.getElem?_eq_none (by omega)]
    exact iff_of_false id fun sound => some' sound.1
  simp only [getD_eq_getElem?_getD, List.getElem?_eq_getElem some', Option.getD_some, Option.bind_eq_bind,
    Option.bind_some, some', true_and]
  by_cases isReply : buf[0] = bootReply
  swap
  · simp [isReply]
  simp only [isReply, ne_eq, not_true_eq_false, if_false, true_imp_iff]
  by_cases third : 2 < buf.length
  swap
  · rw [List.getElem?_eq_none (by omega)]
    exact iff_of_false id fun sound => third sound.1
  simp only [List.getElem?_eq_getElem third, Option.getD_some, Option.bind_some, third, true_and]
  generalize buf[2].toNat = hlen
  by_cases inside : hlen = 0 ∨ 28 + hlen ≤ buf.length
  swap
  · rw [bytes, if_neg inside]
    exact iff_of_false id fun sound => inside sound.1
  rw [bytes, if_pos inside]
  simp only [Option.bind_some, inside, true_and]
  by_cases mine : (buf.drop 28).take hlen = (List.range hlen).map me.enetAddr
  swap
  · simp [mine]
  simp only [mine, not_true_eq_false, if_false, true_imp_iff]
  by_cases eighth : 8 ≤ buf.length
  swap
  · rw [bytes_none (by omega) (by omega)]
    exact iff_of_false id fun sound => eighth sound.1
  rw [bytes_some eighth]
  simp only [Option.bind_some, eighth, true_and]
  by_cases transaction : (buf.drop 4).take 4 = me.xid
  swap
  · simp [transaction]
  simp only [transaction, decide_true, true_imp_iff]
  by_cases enough : 240 ≤ buf.length
  · rw [reads_iff enough]
    simp [enough]
  · refine iff_of_false ?_ fun sound => enough sound.1
    rintro ⟨type, seen, c, walked, mess, _⟩
    rw [messType, bytes_none (by omega) (by omega)] at mess
    cases mess

/-- An offer of 245 bytes whose list of options starts with a pad. -/
def padded : List UInt8 :=
  [bootReply, 1, 0, 0] ++ List.replicate 232 0 ++ dhcpCookie ++ [tagPad, tagDhcpMessType, 1, 2, tagEnd]

/-- `bootp_handler` takes the tag 53 for the length of the pad and finds no type. -/
theorem padded_no_type : ¬Agrees ⟨true, true⟩ ⟨fun _ => 0, [0, 0, 0, 0]⟩ padded := by
  have accepted : accepts ⟨fun _ => 0, [0, 0, 0, 0]⟩ padded = some true := by
    decide +kernel
  rw [Agrees, accepted]
  simp only
  rw [reads_iff (by decide +kernel)]
  intro plain
  have list : padded.drop 240 = [tagPad, tagDhcpMessType, 1, 2, tagEnd] := by
    decide +kernel
  have plain := plain (by decide +kernel)
  rw [list] at plain
  cases plain with
  | option notPad => exact notPad rfl

end Ecos.Redboot.Bootp
