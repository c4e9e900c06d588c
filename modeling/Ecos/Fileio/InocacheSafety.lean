import Mathlib.Data.BitVec
import Ecos.Fileio.Inocache

namespace Ecos.Inocache
open Function Option Nat State List

open Ring

variable {c : Config} {α : Type*} [DecidableEq α] {n : Nodes α} {s s' : State c α} {l₁ l₂ live dead :
  List α} {x y h : α}
  {number number' : UInt32} {fresh : Option α}

theorem insertInList_some (other : x ≠ y) : insertInList n (some y) x = n.insert y x := by
  simp [insertInList, Nodes.insert, update_of_ne other, update_of_ne other.symm]

theorem unlink_eq : unlink n x = n.bridge x := by
  by_cases same : x = n.prev x
  · simp [unlink, Nodes.bridge, ← same]
  · simp [unlink, Nodes.bridge, update_of_ne same]

theorem insert_ring (ring : n.IsRing l₁) (once : l₁.Nodup) (off : x ∉ l₁) : (insertInList n l₁.head? x).IsRing
    (x :: l₁) := by
  cases l₁ with
  | nil => simp [insertInList, Nodes.IsRing, Nodes.Seg]
  | cons y l =>
    rw [head?_cons, insertInList_some (ne_of_mem_of_not_mem (mem_cons_self ..) off).symm]
    have behind : (n.insert y x).IsRing ((y :: l) ++ [x]) := ring.insert_head once off
    exact Nodes.isRing_append_comm.mp behind

theorem insert_other (ring : n.IsRing l₁) (off : x ∉ l₁) (ring' : n.IsRing l₂) (off' : x ∉ l₂)
    (apart : ∀ y ∈ l₂, y ∉ l₁) :
    (insertInList n l₁.head? x).IsRing l₂ := by
  cases l₁ with
  | nil =>
    refine ring'.congr (fun z mem => ?_) fun z mem => ?_
    · exact update_of_ne (ne_of_mem_of_not_mem mem off') ..
    · exact update_of_ne (ne_of_mem_of_not_mem mem off') ..
  | cons y l =>
    rw [head?_cons, insertInList_some (ne_of_mem_of_not_mem (mem_cons_self ..) off).symm]
    have kept : ∀ z ∈ l₂, (n.insert y x).next z = n.next z ∧ (n.insert y x).prev z = n.prev z := fun z mem =>
      ring.insert_off (mem_cons_self ..) off (apart z mem) (ne_of_mem_of_not_mem mem off')
    exact ring'.congr (fun z mem => (kept z mem).1) fun z mem => (kept z mem).2

omit [DecidableEq α] in
theorem member_cases (ring : n.IsRing l₁) (once : l₁.Nodup) (mem : x ∈ l₁)
    (behind : l₁.head? = some x → n.next x = x) :
    l₁ = [x] ∧ n.next x = x ∨ ∃ h l r, l₁ = h :: (l ++ x :: r) ∧ n.next x ≠ x := by
  cases l₁ with
  | nil => exact absurd mem not_mem_nil
  | cons h l =>
    rcases mem_cons.mp mem with rfl | inner
    · have alone := behind rfl
      have next := ring.next_head
      cases l with
      | nil => exact .inl ⟨rfl, alone⟩
      | cons y l =>
        rw [alone] at next
        exact absurd next (by simpa using fun same : x = y =>
          (nodup_cons.mp once).1 (same ▸ mem_cons_self ..))
    · obtain ⟨l, r, rfl⟩ := append_of_mem inner
      refine .inr ⟨h, l, r, rfl, ?_⟩
      rw [ring.around.1.1]
      intro same
      have next := Nodes.after_mem (h := h) (r := r)
      rw [same] at next
      simp only [nodup_cons, nodup_append, mem_append, mem_cons, not_or] at once next
      rcases next with isHead | later
      · exact once.1.2.1 isHead.symm
      · exact once.2.2.1.1 later

theorem move (ring₁ : n.IsRing l₁) (ring₂ : n.IsRing l₂) (once₁ : l₁.Nodup) (once₂ : l₂.Nodup)
    (apart : ∀ y ∈ l₁, y ∉ l₂)
    (mem : x ∈ l₁) (behind : l₁.head? = some x → n.next x = x) {p : Prop} [Decidable p] (alone : p ↔ l₁ = [x]) :
    (insertInList (if p then n else unlink n x) l₂.head? x).IsRing (l₁.erase x) ∧
      (insertInList (if p then n else unlink n x) l₂.head? x).IsRing (x :: l₂) ∧
      (l₁.erase x).head? = if p then none else l₁.head? := by
  have off := apart x mem
  have off' : x ∉ l₁.erase x := fun inRest => (once₁.mem_erase_iff.mp inRest).1 rfl
  rcases member_cases ring₁ once₁ mem behind with ⟨rfl, _⟩ | ⟨h, l, r, rfl, _⟩
  · rw [if_pos (alone.mpr rfl), if_pos (alone.mpr rfl)]
    exact ⟨by simp [Nodes.IsRing], insert_ring ring₂ once₂ off, by simp⟩
  · have more : ¬p := fun isAlone => by simpa using congrArg List.length (alone.mp isAlone)
    have notHead : h ≠ x := fun same => (nodup_cons.mp once₁).1 (by simp [same])
    have notBefore : x ∉ l := fun before => by
      have split := (nodup_append.mp (nodup_cons.mp once₁).2).2.2
      exact split x before x (mem_cons_self ..) rfl
    have rest : (h :: (l ++ x :: r)).erase x = h :: (l ++ r) := by
      rw [erase_cons_tail (by simpa using notHead), erase_append_right _ notBefore, erase_cons_head]
    have kept : ∀ z ∈ l₂, (n.bridge x).next z = n.next z ∧ (n.bridge x).prev z = n.prev z := fun z inOther =>
      ring₁.bridge_off mem fun inThis => apart z inThis inOther
    have other : (n.bridge x).IsRing l₂ := ring₂.congr (fun z inOther => (kept z inOther).1) fun z inOther =>
      (kept z inOther).2
    rw [if_neg more, if_neg more, unlink_eq]
    rw [rest] at off' ⊢
    have smaller : ∀ y ∈ h :: (l ++ r), y ∉ l₂ := fun y inRest => apart y (by
      rw [← rest] at inRest
      exact mem_of_mem_erase inRest)
    exact ⟨insert_other other off (ring₁.bridge once₁) off' smaller, insert_ring other once₂ off, rfl⟩

omit [DecidableEq α] in
theorem holds_init {count : α → BitVec c.bits} {number : α → UInt32} : Holds (init (c := c) n number count) [] [] where
  head := rfl
  freeable := rfl
  liveRing := trivial
  deadRing := trivial
  liveOnce := nodup_nil
  deadOnce := nodup_nil
  referenced x := by simp [init]
  unreferenced x := by simp [init]
  len := by simp [init]
  few := by simp [init]

omit [DecidableEq α] in
theorem Holds.apart (holds : Holds s live dead) : ∀ y ∈ live, y ∉ dead := fun y mem mem' =>
  ((holds.referenced y).mp mem).2 ((holds.unreferenced y).mp mem').2

theorem one_ne_zero' (c : Config) : (1 : BitVec c.bits) ≠ 0 := fun same => by
  have zero := congrArg BitVec.toNat same
  have wide := c.wide
  simp at zero
  omega

theorem Holds.create (holds : Holds s live dead) (unused : ∀ x ∈ fresh, x ∉ s.inodes) : Good
    (s.create fresh number) := by
  cases fresh with
  | none => exact ⟨live, dead, holds⟩
  | some ni =>
    have new := unused ni rfl
    have notLive : ni ∉ live := fun mem => new ((holds.referenced ni).mp mem).1
    have notDead : ni ∉ dead := fun mem => new ((holds.unreferenced ni).mp mem).1
    have wide := c.wide.ne'
    refine ⟨ni :: live, dead, rfl, holds.freeable, ?_, ?_, nodup_cons.mpr ⟨notLive, holds.liveOnce⟩,
      holds.deadOnce,
      fun x => ?_, fun x => ?_, holds.len, holds.few⟩
    · simp only [create, holds.head]
      exact insert_ring holds.liveRing holds.liveOnce notLive
    · simp only [create, holds.head]
      exact insert_other holds.liveRing notLive holds.deadRing notDead fun y mem inLive =>
        holds.apart y inLive mem
    · by_cases same : x = ni
      · simp [create, same, wide]
      · simp [create, same, holds.referenced]
    · by_cases same : x = ni
      · simp [create, same, wide, notDead]
      · simp [create, same, holds.unreferenced]

theorem find_ring (ring : n.IsRing (h :: l₁)) (once : (h :: l₁).Nodup) (same : s.nodes = n) {fuel : Nat}
    (enough : (h :: l₁).length ≤ fuel) : s.find number h fuel h =
      some ((h :: l₁).find? fun x => s.number x = number) := by
  subst same
  suffices seg : ∀ l x, s.nodes.Seg x l h → h ∉ l → ∀ fuel, (x :: l).length ≤ fuel →
      s.find number h fuel x = some ((x :: l).find? fun x => s.number x = number) from
    seg l₁ h ring (nodup_cons.mp once).1 fuel enough
  intro l
  induction l with
  | nil =>
    intro x seg _ fuel enough
    obtain ⟨fuel, rfl⟩ : ∃ k, fuel = k + 1 := ⟨fuel - 1, by simp at enough; omega⟩
    by_cases hit : s.number x = number
    · simp [State.find, hit]
    · simp [State.find, hit, seg.1]
  | cons y l ih =>
    intro x seg off fuel enough
    obtain ⟨fuel, rfl⟩ : ∃ k, fuel = k + 1 := ⟨fuel - 1, by simp at enough; omega⟩
    rw [mem_cons, not_or] at off
    have rest := ih y seg.2 off.2 fuel (by simp at enough ⊢; omega)
    by_cases hit : s.number x = number
    · simp [State.find, hit]
    · rw [State.find, if_neg hit, seg.1.1, if_neg (Ne.symm off.1), rest,
      find?_cons_of_neg (a := x) (by simpa using hit)]

theorem lookup_eq (ring : s.nodes.IsRing l₁) (once : l₁.Nodup) (inside : ∀ x ∈ l₁, x ∈ s.inodes) :
    s.lookup number l₁.head? = some (l₁.find? fun x => s.number x = number) := by
  cases l₁ with
  | nil => rfl
  | cons h l => exact find_ring ring once rfl (once.subperm inside).length_le

theorem Holds.recount (holds : Holds s live dead) {n : BitVec c.bits} (used : s.count x ≠ 0) (still : n ≠ 0) :
    Holds { s with count := update s.count x n } live dead := by
  refine ⟨holds.head, holds.freeable, holds.liveRing, holds.deadRing, holds.liveOnce, holds.deadOnce, fun y => ?_,
    fun y => ?_, holds.len, holds.few⟩
  · by_cases same : y = x
    · rw [same, holds.referenced]
      simp only [update_self]
      exact and_congr_right fun _ => iff_of_true used still
    · simp only [update_of_ne same]
      exact holds.referenced y
  · by_cases same : y = x
    · rw [same, holds.unreferenced]
      simp only [update_self]
      exact and_congr_right fun _ => iff_of_false used still
    · simp only [update_of_ne same]
      exact holds.unreferenced y

theorem put_kept (holds : Holds s live dead) (used : s.count x ≠ 0) (more : s.count x ≠ 1) :
    Holds (s.put x) live dead := by
  have still : s.count x - 1 ≠ 0 := fun same => more (sub_eq_zero.mp same)
  have isPut : s.put x = { s with count := update s.count x (s.count x - 1) } := by
    rw [put, update_self]
    exact if_neg still
  rw [isPut]
  exact holds.recount used still

theorem put_last (last : s.count x = 1) : (s.put x).count = update s.count x 0 ∧
    (s.put x).head = (if s.nodes.next x = x then none else s.head) ∧ (s.put x).freeable = some x ∧
    (s.put x).freeablelistlen = s.freeablelistlen + 1 ∧
    ((s.freeablelistlen + 1).toNat ≤ c.max → (s.put x).inodes = s.inodes ∧
      (s.put x).nodes = insertInList (if s.nodes.next x = x then s.nodes else unlink s.nodes x) s.freeable x) := by
  have zero : s.count x - 1 = 0 := sub_eq_zero.mpr last
  simp only [put, update_self, zero, if_true]
  split
  · refine ⟨rfl, rfl, rfl, rfl, fun few => ?_⟩
    omega
  · exact ⟨rfl, rfl, rfl, rfl, fun _ => ⟨rfl, rfl⟩⟩

theorem toNat_succ {b : BitVec c.bits} (noWrap : b + 1 ≠ 0) : (b + 1).toNat = b.toNat + 1 := by
  have one : 1 < 2 ^ c.bits := Nat.one_lt_two_pow c.wide.ne'
  have whole : b.toNat + 1 ≠ 2 ^ c.bits := fun same => noWrap (by
    apply BitVec.eq_of_toNat_eq
    simp [mod_eq_of_lt one, same])
  simp only [BitVec.toNat_add, BitVec.toNat_ofNat, BitVec.ofNat_eq_ofNat, mod_eq_of_lt one]
  exact mod_eq_of_lt (by omega)

theorem put_dead (holds : Holds s live dead) (mem : x ∈ s.inodes) (last : s.count x = 1)
    (behind : s.head = some x → s.nodes.next x = x) (room : s.freeablelistlen.toNat < c.max) (noWrap :
      s.freeablelistlen + 1 ≠ 0) :
    Holds (s.put x) (live.erase x) (x :: dead) := by
  have used : s.count x ≠ 0 := last ▸ one_ne_zero' c
  have inLive := (holds.referenced x).mpr ⟨mem, used⟩
  obtain ⟨count, head, freeable, len, rest⟩ := put_last last
  have longer := toNat_succ noWrap
  obtain ⟨inodes, nodes⟩ := rest (by omega)
  have alone : s.nodes.next x = x ↔ live = [x] := by
    rcases member_cases holds.liveRing holds.liveOnce inLive (holds.head ▸ behind) with both | ⟨h, l, r, rfl, other⟩
    · exact iff_of_true both.2 both.1
    · exact iff_of_false other fun same => by simpa using congrArg List.length same
  obtain ⟨liveRing, deadRing, first⟩ :=
    move holds.liveRing holds.deadRing holds.liveOnce holds.deadOnce holds.apart inLive
    (holds.head ▸ behind) alone
  refine ⟨?_, freeable, ?_, ?_, holds.liveOnce.erase x, nodup_cons.mpr ⟨holds.apart x inLive, holds.deadOnce⟩,
    fun y => ?_,
    fun y => ?_, ?_, ?_⟩
  · rw [head, first, holds.head]
  · rw [nodes, holds.freeable]
    exact liveRing
  · rw [nodes, holds.freeable]
    exact deadRing
  · rw [count, inodes, holds.liveOnce.mem_erase_iff, holds.referenced]
    by_cases same : y = x <;> simp [same]
  · rw [count, inodes, mem_cons, holds.unreferenced]
    by_cases same : y = x
    · simp [same, mem]
    · simp [same]
  · rw [len, longer, holds.len, length_cons]
  · rw [len, longer]
    exact room

theorem put_good_iff (holds : Holds s live dead) (mem : x ∈ s.inodes) (used : s.count x ≠ 0) :
    Good (s.put x) ↔ s.Fine (.put x) := by
  by_cases last : s.count x = 1
  · obtain ⟨count, head, freeable, len, rest⟩ := put_last last
    constructor
    · rintro ⟨live', dead', holds'⟩ _
      have zero : (s.put x).count x = 0 := by rw [count, update_self]
      have isFirst : dead'.head? = some x := holds'.freeable.symm.trans freeable
      have some' : dead'.length ≠ 0 := fun none' => by
        rw [length_eq_zero_iff.mp none'] at isFirst
        cases isFirst
      have noWrap : s.freeablelistlen + 1 ≠ 0 := fun same => some' (by rw [← holds'.len, len, same]; simp)
      have few := holds'.few
      rw [len, toNat_succ noWrap] at few
      refine ⟨fun isHead => ?_, few, noWrap⟩
      by_contra other
      rw [if_neg other, isHead] at head
      have inLive : x ∈ live' := mem_of_head? (holds'.head.symm.trans head)
      exact ((holds'.referenced x).mp inLive).2 zero
    · intro fine
      obtain ⟨behind, room, noWrap⟩ := fine last
      exact ⟨_, _, put_dead holds mem last behind room noWrap⟩
  · exact iff_of_true ⟨_, _, put_kept holds used last⟩ fun isLast => absurd isLast last

theorem get_live (hit : s.lookup number s.head = some (some x)) :
    s.get number fresh number' = some { s with count := update s.count x (s.count x + 1) } := by
  rw [State.get, hit]
  rfl

theorem get_live_iff (holds : Holds s live dead) (inLive : x ∈ live) :
    Good { s with count := update s.count x (s.count x + 1) } ↔ s.count x + 1 ≠ 0 := by
  have used := ((holds.referenced x).mp inLive).2
  constructor
  · rintro ⟨live', dead', holds'⟩
    have sameHead : live'.head? = live.head? := holds'.head.symm.trans holds.head
    have same : live' = live := by
      cases live with
      | nil => exact absurd inLive not_mem_nil
      | cons h l =>
        obtain ⟨l', rfl⟩ := head?_eq_some_iff.mp sameHead
        have off := (nodup_cons.mp holds.liveOnce).1
        have off' := (nodup_cons.mp holds'.liveOnce).1
        rw [Nodes.IsRing.unique holds'.liveRing holds.liveRing off' off]
    have count := ((holds'.referenced x).mp (same ▸ inLive)).2
    simpa only [update_self] using count
  · exact fun still => ⟨live, dead, holds.recount used still⟩

/-- The cache after a dead inode has come into use again. -/
def State.revive (s : State c α) (tmp : α) : State c α :=
  { s with
    nodes := insertInList (if s.freeablelistlen - 1 ≠ 0 then unlink s.nodes tmp else s.nodes) s.head tmp
    count := Function.update s.count tmp (s.count tmp + 1)
    head := some tmp
    freeable := if s.freeablelistlen - 1 ≠ 0 then s.freeable else none
    freeablelistlen := s.freeablelistlen - 1 }

theorem get_dead (missed : s.lookup number s.head = some none) (hit : s.lookup number s.freeable = some (some x)) :
    s.get number fresh number' = some (s.revive x) := by
  rw [State.get, missed]
  simp only [bind, Option.bind, hit]
  rfl

theorem get_none (missed : s.lookup number s.head = some none) (missed' : s.lookup number s.freeable = some none) :
    s.get number fresh number' = some (s.create fresh number') := by
  rw [State.get, missed]
  simp only [bind, Option.bind, missed']

/-- A dead inode comes back rightly if it is not the first of others. -/
theorem revive_iff (holds : Holds s live dead) (inDead : x ∈ dead) :
    Good (s.revive x) ↔ (s.freeable = some x → s.nodes.next x = x) := by
  have zero := ((holds.unreferenced x).mp inDead).2
  have inside := ((holds.unreferenced x).mp inDead).1
  have one := one_ne_zero' c
  have count : (s.revive x).count = update s.count x 1 := by
    simp only [revive, zero, zero_add]
  have long : dead.length ≠ 0 := fun none' => by
    rw [length_eq_zero_iff.mp none'] at inDead
    cases inDead
  have lenSub : (s.freeablelistlen - 1).toNat + 1 = s.freeablelistlen.toNat := by
    have noWrap : s.freeablelistlen - 1 + 1 ≠ 0 := by
      rw [sub_add_cancel]
      intro same
      exact long (by rw [← holds.len, same]; simp)
    rw [← toNat_succ noWrap, sub_add_cancel]
  have single : s.freeablelistlen - 1 ≠ 0 ↔ dead.length ≠ 1 := by
    have len := holds.len
    rw [not_iff_not]
    constructor
    · intro same
      rw [same] at lenSub
      simp at lenSub
      omega
    · intro same
      refine BitVec.eq_of_toNat_eq ?_
      rw [show (0 : BitVec c.bits).toNat = 0 from BitVec.toNat_ofNat .. |>.trans (zero_mod _)]
      omega
  constructor
  · rintro ⟨live', dead', holds'⟩ isFirst
    by_contra other
    have more : dead.length ≠ 1 := fun same => by
      obtain ⟨y, rfl⟩ := length_eq_one_iff.mp same
      obtain rfl := mem_singleton.mp inDead
      exact other holds.deadRing.1
    have first : (s.revive x).freeable = some x := by
      rw [revive]
      exact (if_pos (single.mpr more)).trans isFirst
    have still : x ∈ dead' := mem_of_head? (holds'.freeable.symm.trans first)
    have isZero := ((holds'.unreferenced x).mp still).2
    rw [count, update_self] at isZero
    exact one isZero
  · intro behind
    have notApart : ∀ y ∈ dead, y ∉ live := fun y mem mem' => holds.apart y mem' mem
    have alone : s.freeablelistlen - 1 = 0 ↔ dead = [x] := by
      rw [← not_iff_not, ← ne_eq, single, not_iff_not, length_eq_one_iff]
      constructor
      · rintro ⟨y, rfl⟩
        rw [mem_singleton.mp inDead]
      · exact fun same => ⟨x, same⟩
    obtain ⟨deadRing, liveRing, first⟩ :=
      move holds.deadRing holds.liveRing holds.deadOnce holds.liveOnce notApart inDead
      (holds.freeable ▸ behind) alone
    have nodes : (s.revive x).nodes =
      insertInList (if s.freeablelistlen - 1 = 0 then s.nodes else unlink s.nodes x) live.head? x := by
      simp only [revive, ite_not, holds.head]
    refine ⟨x :: live, dead.erase x, rfl, ?_, nodes ▸ liveRing, nodes ▸ deadRing,
      nodup_cons.mpr ⟨notApart x inDead, holds.liveOnce⟩,
      holds.deadOnce.erase x, fun y => ?_, fun y => ?_, ?_, ?_⟩
    · simp only [revive, ite_not, holds.freeable]
      exact first.symm
    · rw [count, mem_cons, holds.referenced]
      by_cases same : y = x
      · rw [same, update_self]
        exact iff_of_true (.inl rfl) ⟨inside, one⟩
      · rw [update_of_ne same]
        exact or_iff_right same
    · rw [count, holds.deadOnce.mem_erase_iff, holds.unreferenced]
      by_cases same : y = x
      · rw [same, update_self]
        exact iff_of_false (fun both => both.1 rfl) fun both => one both.2
      · rw [update_of_ne same]
        exact and_iff_right same
    · have len := holds.len
      simp only [revive, length_erase_of_mem inDead]
      omega
    · have few := holds.few
      simp only [revive]
      omega

theorem step_good_iff (good : Good s) {a : Action α} (legal : s.Legal a) :
    (∃ s', s.step a = some s' ∧ Good s') ↔ s.Fine a := by
  obtain ⟨live, dead, holds⟩ := good
  cases a with
  | create fresh number => exact iff_of_true ⟨_, rfl, holds.create legal⟩ trivial
  | put x =>
    simp only [step, some.injEq, exists_eq_left']
    exact put_good_iff holds legal.1 legal.2
  | get number fresh number' =>
    have inLive : ∀ x ∈ live, x ∈ s.inodes := fun x mem => ((holds.referenced x).mp mem).1
    have inDead : ∀ x ∈ dead, x ∈ s.inodes := fun x mem => ((holds.unreferenced x).mp mem).1
    have first : s.lookup number s.head = some (live.find? fun x => s.number x = number) :=
      holds.head ▸ lookup_eq holds.liveRing holds.liveOnce inLive
    have second : s.lookup number s.freeable = some (dead.find? fun x => s.number x = number) :=
      holds.freeable ▸ lookup_eq holds.deadRing holds.deadOnce inDead
    simp only [step, Fine]
    cases live? : live.find? fun x => s.number x = number with
    | some x =>
      rw [live?] at first
      rw [get_live first]
      simp only [first, some.injEq, exists_eq_left', forall_eq', reduceCtorEq, false_imp_iff, implies_true,
        and_true]
      exact get_live_iff holds (mem_of_find?_eq_some live?)
    | none =>
      rw [live?] at first
      cases dead? : dead.find? fun x => s.number x = number with
      | some x =>
        rw [dead?] at second
        rw [get_dead first second]
        simp only [first, second, some.injEq, exists_eq_left', forall_eq', reduceCtorEq, false_imp_iff,
          implies_true,
          true_and, true_imp_iff]
        exact revive_iff holds (mem_of_find?_eq_some dead?)
      | none =>
        rw [dead?] at second
        rw [get_none first second]
        simp only [first, second, some.injEq, exists_eq_left', reduceCtorEq, false_imp_iff, implies_true,
          true_and]
        exact iff_of_true (holds.create legal) trivial

/-- In a run whose steps keep the lists right when they are fine, all states are right if and only if all steps are
fine. -/
theorem run_good_iff (good : Good s) {acts : List (Action α)} (legal : s.LegalRun acts) :
    (∀ before after, acts = before ++ after → ∃ s', before.foldlM State.step s = some s' ∧ Good s') ↔
      ∀ before a after s', acts = before ++ a :: after → before.foldlM State.step s = some s' → s'.Fine a := by
  induction acts generalizing s with
  | nil =>
    refine iff_of_true (fun before after none' => ?_) fun before a after s' none' => by simp at none'
    rw [(append_eq_nil_iff.mp none'.symm).1]
    exact ⟨s, rfl, good⟩
  | cons a acts ih =>
    obtain ⟨legal, later⟩ := legal
    have stepIff := step_good_iff good legal
    constructor
    · intro right
      obtain ⟨s₁, run, good₁⟩ := right [a] acts rfl
      simp only [foldlM_cons, foldlM_nil, bind_pure] at run
      have rest := (ih good₁ (later s₁ run)).mp fun before after split => by
        obtain ⟨s', run', good'⟩ := right (a :: before) after (by rw [split, cons_append])
        rw [foldlM_cons, run] at run'
        exact ⟨s', run', good'⟩
      intro before b after s' split run'
      cases before with
      | nil =>
        obtain ⟨rfl, -⟩ := cons.inj split
        obtain rfl := some.inj run'
        exact stepIff.mp ⟨s₁, run, good₁⟩
      | cons _ before =>
        obtain ⟨rfl, rfl⟩ := cons.inj split
        rw [foldlM_cons, run] at run'
        exact rest before b after s' rfl run'
    · intro fine
      obtain ⟨s₁, run, good₁⟩ := stepIff.mpr (fine [] a acts s rfl rfl)
      have rest := (ih good₁ (later s₁ run)).mpr fun before b after s' split run' =>
        fine (a :: before) b after s' (by rw [split, cons_append]) (by rw [foldlM_cons, run]; exact run')
      intro before after split
      cases before with
      | nil => exact ⟨s, rfl, good⟩
      | cons _ before =>
        obtain ⟨rfl, rfl⟩ := cons.inj split
        obtain ⟨s', run', good'⟩ := rest before after rfl
        exact ⟨s', by rw [foldlM_cons, run]; exact run', good'⟩

omit [DecidableEq α] in
theorem destroyLoop_some (fuel : Nat) (x : α) : destroyLoop n fuel (some x) = none := by
  induction fuel generalizing x with
  | zero => rfl
  | succ fuel ih => rw [destroyLoop, ih, map_none]

omit [DecidableEq α] in
theorem destroys_iff (good : Good s) : Destroys s ↔ s.head = none ∧ s.freeable = none := by
  obtain ⟨live, dead, holds⟩ := good
  constructor
  · rintro ⟨fuel, freed, ends, _⟩
    rw [destroy] at ends
    cases head : s.head with
    | some x =>
      rw [head, destroyLoop_some] at ends
      cases ends
    | none =>
      cases freeable : s.freeable with
      | some x =>
        rw [head, freeable, destroyLoop_some] at ends
        cases fuel <;> cases ends
      | none => exact ⟨rfl, rfl⟩
  · rintro ⟨head, freeable⟩
    have noLive : live = [] := head?_eq_none_iff.mp (holds.head.symm.trans head)
    have noDead : dead = [] := head?_eq_none_iff.mp (holds.freeable.symm.trans freeable)
    refine ⟨0, [], ?_, nodup_nil, fun x => iff_of_false not_mem_nil fun mem => ?_⟩
    · rw [destroy, head, freeable]
      rfl
    · by_cases zero : s.count x = 0
      · exact absurd ((holds.unreferenced x).mpr ⟨mem, zero⟩) (by simp [noDead])
      · exact absurd ((holds.referenced x).mpr ⟨mem, zero⟩) (by simp [noLive])

/-- From an empty cache on the lists are right after each action if and only if all actions are harmless, and then the
cache can be destroyed exactly when it is empty. -/
theorem inocache_iff (c : Config) (n : Nodes α) (number : α → UInt32) (count : α → BitVec c.bits)
    (acts : List (Action α))
    (legal : (init (c := c) n number count).LegalRun acts) :
    ((∀ before after, acts = before ++ after →
      ∃ s, before.foldlM State.step (init (c := c) n number count) = some s ∧ Good s) ↔
    ∀ before a after s, acts = before ++ a :: after →
      before.foldlM State.step (init (c := c) n number count) = some s → s.Fine a) ∧
    ∀ s, acts.foldlM State.step (init (c := c) n number count) = some s → Good s →
      (Destroys s ↔ s.head = none ∧ s.freeable = none) :=
  ⟨run_good_iff ⟨[], [], holds_init⟩ legal, fun _ _ good => destroys_iff good⟩

/-- The memory before the first inode, and the default configuration. -/
def blank : State ⟨10, 8, by decide, by decide⟩ Nat := init Nodes.single (fun _ => 0) fun _ => 0

/-- An inode that dies alone and comes back. -/
theorem inocache_single : ∃ s, [Action.create (some 0) 5, .put 0, .get 5 none 0].foldlM State.step blank = some s ∧
    Good s := by
  have legal : blank.LegalRun [Action.create (some 0) 5, .put 0, .get 5 none 0] := by
    refine ⟨by simp [State.Legal, blank, init], fun s₁ first => ?_⟩
    obtain rfl := Option.some.inj first
    refine ⟨⟨by decide, by decide⟩, fun s₂ second => ?_⟩
    obtain rfl := Option.some.inj second
    exact ⟨by simp [State.Legal], fun _ _ => trivial⟩
  refine (inocache_iff ⟨10, 8, by decide, by decide⟩ Nodes.single (fun _ => 0) (fun _ => 0) _ legal).1.mpr ?_ _ []
    (append_nil _).symm
  intro before a after s split run
  rcases before with - | ⟨_, - | ⟨_, - | ⟨_, before⟩⟩⟩
  · obtain ⟨rfl, -⟩ := List.cons.inj split
    trivial
  · simp only [cons_append, nil_append, List.cons.injEq] at split
    obtain ⟨rfl, rfl, -⟩ := split
    obtain rfl := Option.some.inj run
    exact fun _ => ⟨fun _ => by decide, by decide, by decide⟩
  · simp only [cons_append, nil_append, List.cons.injEq] at split
    obtain ⟨rfl, rfl, rfl, -⟩ := split
    obtain rfl := Option.some.inj run
    refine ⟨fun x hit => ?_, fun x missed hit isFirst => ?_⟩
    · cases hit
    · obtain rfl := Option.some.inj isFirst
      decide
  · simp at split

/-- Of two inodes the one at the head of the list loses its last reference. -/
theorem inocache_head : ¬∀ (acts : List (Action Nat)), blank.LegalRun acts →
    ∀ before after, acts = before ++ after → ∃ s, before.foldlM State.step blank = some s ∧ Good s := by
  intro all
  have legal : blank.LegalRun [Action.create (some 0) 5, .create (some 1) 6, .put 1] := by
    refine ⟨by simp [State.Legal, blank, init], fun s₁ first => ?_⟩
    obtain rfl := Option.some.inj first
    refine ⟨by simp [State.Legal, State.create, blank, init], fun s₂ second => ?_⟩
    obtain rfl := Option.some.inj second
    exact ⟨⟨by decide, by decide⟩, fun _ _ => trivial⟩
  obtain ⟨s, run, live, dead, holds⟩ := all _ legal _ [] (append_nil _).symm
  obtain rfl := Option.some.inj run
  have first : live.head? = some 1 := holds.head.symm
  exact ((holds.referenced 1).mp (mem_of_head? first)).2 (by decide)

end Ecos.Inocache
