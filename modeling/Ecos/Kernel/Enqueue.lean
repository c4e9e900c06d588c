import Ecos.Kernel.Linked

namespace Ecos
open Function Ring List

section Place
variable {cfg : Config} {T : Type} {pri : T → Priority cfg} {t : T} {l : List T}

theorem placeQueued_perm : (placeQueued pri t l).Perm (t :: l) := by
  unfold placeQueued
  split
  · cases l with
    | nil => exact .refl _
    | cons head rest =>
      dsimp only
      split
      · exact .refl _
      · refine perm_middle.trans ?_
        rw [rdropWhile_append_rtakeWhile]
  · exact perm_append_singleton ..

@[simp] theorem mem_placeQueued {u : T} : u ∈ placeQueued pri t l ↔ u = t ∨ u ∈ l := by
  rw [placeQueued_perm.mem_iff, mem_cons]

theorem exists_lastUrgent (pri : T → Priority cfg) {h : T} (mem : h ∈ l) (atLeast : ¬ pri t < pri h) :
    ∃ front y back, l = front ++ y :: back ∧ ¬ pri t < pri y ∧ ∀ b ∈ back, pri t < pri b := by
  induction l generalizing h with
  | nil => simp at mem
  | cons u l ih =>
    by_cases later : ∃ v ∈ l, ¬ pri t < pri v
    · obtain ⟨v, inTail, urgent⟩ := later
      obtain ⟨front, y, back, split, last, less⟩ := ih inTail urgent
      exact ⟨u :: front, y, back, by simp [split], last, less⟩
    · push Not at later
      refine ⟨[], u, l, rfl, ?_, later⟩
      rcases mem_cons.mp mem with same | inTail
      · exact same ▸ atLeast
      · exact absurd (later h inTail) atLeast

theorem placeQueued_behind (pri : T → Priority cfg) {y : T} {front back : List T} (sorted : cfg.sortedQueues = true)
    (split : l = front ++ y :: back) (head : ∀ h ∈ l.head?, ¬ pri t < pri h) (atLeast : ¬ pri t < pri y)
    (less : ∀ b ∈ back, pri t < pri b) : placeQueued pri t l = front ++ y :: t :: back := by
  have dropped : l.rdropWhile (pri t < pri ·) = front ++ [y] := by
    rw [split]
    clear split head
    induction back using reverseRecOn with
    | nil => exact rdropWhile_concat_neg _ _ _ (by simpa using atLeast)
    | append_singleton back b ih =>
      have last : pri t < pri b := less b (by simp)
      rw [show front ++ y :: (back ++ [b]) = (front ++ y :: back) ++ [b] by simp,
        rdropWhile_concat_pos _ _ _ (by simpa using last)]
      exact ih fun c mem => less c (by simp [mem])
  have taken : l.rtakeWhile (pri t < pri ·) = back := by
    have whole := rdropWhile_append_rtakeWhile (p := fun x => decide (pri t < pri x)) (l := l)
    rw [dropped] at whole
    exact append_cancel_left (whole.trans (by simp [split]))
  cases l with
  | nil => simp at split
  | cons h rest =>
    have first : ¬ pri t < pri h := head h rfl
    rw [placeQueued, if_pos sorted]
    simp only [if_neg first]
    rw [dropped, taken]
    simp

end Place

namespace Kernel
variable {cfg : Config} {T Q : Type} [DecidableEq T] [DecidableEq Q]
variable {clean : Prop} {idle x : T} {k : Kernel cfg T Q} {L : ListId cfg Q → List T} {q : Q}

theorem searchBack_eq {pri : Priority cfg} {y : T} {front back after : List T} {fuel : Nat}
    (ring : k.lists.nodes.IsRing (front ++ y :: (back ++ after))) (atLeast : ¬ pri < (k.thread y).priority)
    (less : ∀ b ∈ back, pri < (k.thread b).priority) (enough : back.length < fuel) :
    k.searchBack pri fuel ((y :: back).getLast (by simp)) = y := by
  induction back using reverseRecOn generalizing after fuel with
  | nil =>
    obtain ⟨fuel, rfl⟩ := Nat.exists_eq_succ_of_ne_zero (by omega : fuel ≠ 0)
    simp [searchBack, atLeast]
  | append_singleton back b ih =>
    obtain ⟨fuel, rfl⟩ := Nat.exists_eq_succ_of_ne_zero (by omega : fuel ≠ 0)
    have last : pri < (k.thread b).priority := less b (by simp)
    have turned : k.lists.nodes.IsRing ((y :: back) ++ b :: (after ++ front)) := by
      rw [Nodes.isRing_append_comm] at ring
      simpa using ring
    have longer : k.lists.nodes.IsRing (front ++ y :: (back ++ b :: after)) := by simpa using ring
    have found := ih longer (fun c mem => less c (by simp [mem]))
      (show back.length < fuel by simp at enough; omega)
    simp only [getLast_cons (concat_ne_nil _ _), getLast_concat, searchBack, if_pos last,
      turned.prev_inner]
    exact found

variable [Fintype T]

/-- The pointer form of `enqueue` inserts where `placeQueued` does. -/
theorem placeNode_represents (rep : k.lists.Represents L) (fresh : ∀ i, x ∉ L i) : (k.placeNode q x).Represents
      (update L (.wait q) (placeQueued (fun u => (k.thread u).priority) x (L (.wait q)))) := by
  unfold placeNode
  by_cases sorted : cfg.sortedQueues = true
  swap
  · simpa [sorted, placeQueued] using rep.addTail fresh
  simp only [sorted, if_true]
  split
  · next empty =>
    rw [rep.heads, head?_eq_none_iff] at empty
    simpa [placeQueued, sorted, empty] using rep.addTail (k := .wait q) fresh
  next h head =>
  obtain ⟨rest, split⟩ := rep.head_some head
  have ring := rep.ring (.wait q)
  rw [split] at ring
  have grown := rep.addTail (k := .wait q) fresh
  simp only [Store.addTail, head] at grown
  -- the ring grown at its tail; moving the head pointer back by one puts `x` in front
  have front : (k.thread x).priority < (k.thread h).priority →
      (({ k.lists with nodes := k.lists.nodes.insert h x } : Store _ _).toHead (.wait q) x).Represents
        (update L (.wait q) (placeQueued (fun u => (k.thread u).priority) x (L (.wait q)))) := by
    intro first
    have turned := grown.toHead (k := .wait q) (x := x) (show _ = (h :: rest) ++ x :: [] by simp [split])
    simpa [placeQueued, sorted, split, first] using turned
  by_cases first : (k.thread x).priority < (k.thread h).priority
  · split <;> simpa [first] using front first
  have inQueue : h ∈ L (.wait q) := split ▸ mem_cons_self ..
  obtain ⟨before, y, back, cut, urgent, less⟩ :=
    exists_lastUrgent (fun u => (k.thread u).priority) (t := x) inQueue first
  have noneAhead : ∀ u ∈ (L (.wait q)).head?, ¬ (k.thread x).priority < (k.thread u).priority := by
    simpa [split] using first
  have placed := placeQueued_behind (fun u => (k.thread u).priority) sorted cut noneAhead urgent less
  have lastOf : k.lists.nodes.prev h = (y :: back).getLast (by simp) := by
    rw [ring.prev_head]
    simp only [← split, cut]
    simp
  -- without a less urgent thread behind `y` the place is the tail
  have tail : back = [] → ({ k.lists with nodes := k.lists.nodes.insert h x } : Store _ _).Represents
      (update L (.wait q) (placeQueued (fun u => (k.thread u).priority) x (L (.wait q)))) := by
    rintro rfl
    rw [placed]
    simpa [cut] using grown
  split
  · next alone =>
    have single : rest = [] := by
      by_contra more
      obtain ⟨z, rest, rfl⟩ := exists_cons_of_ne_nil more
      have nodup := rep.nodup (.wait q)
      rw [split] at nodup
      have second : k.lists.nodes.next h = z := ring.next_head
      simp [← second, ← alone] at nodup
    have atHead : before = [] ∧ back = [] := by
      have size := congrArg List.length (split.symm.trans cut)
      simp only [single, length_append, length_cons, length_nil] at size
      exact ⟨length_eq_zero_iff.mp (by omega), length_eq_zero_iff.mp (by omega)⟩
    simpa [first] using tail atHead.2
  · split
    · next lower =>
      simp only [Store.addTail, head]
      refine tail ?_
      by_contra more
      have inBack : (y :: back).getLast (by simp) ∈ back := by
        rw [getLast_cons more]
        exact getLast_mem more
      rw [lastOf] at lower
      exact absurd (less _ inBack) lower.asymm
    · have ringCut : k.lists.nodes.IsRing (before ++ y :: (back ++ [])) := by
        have whole := rep.ring (.wait q)
        rw [cut] at whole
        simpa using whole
      have short : back.length < Fintype.card T := by
        have bound := (rep.nodup (.wait q)).length_le_card
        rw [cut] at bound
        simp at bound
        omega
      rw [lastOf, searchBack_eq ringCut urgent less short, placed]
      exact rep.append cut fresh

@[simp] theorem enqueue_thread : (k.enqueue q x).thread = update k.thread x { k.thread x with queue := some q } := rfl

theorem Off.enqueue (off : Off clean idle k L x) (asleep : (k.thread x).state.sleeping = true)
    (blocked : (k.thread x).sleepReason.blocking = true)
    (counted : 0 < (k.thread x).suspendCount → (k.thread x).state.suspended = true) :
    Linked clean idle (k.enqueue q x)
      (update L (.wait q) (placeQueued (fun u => (k.thread u).priority) x (L (.wait q)))) := by
  set L' := update L (.wait q) (placeQueued (fun u => (k.thread u).priority) x (L (.wait q))) with hL
  have stopped : ¬ ({ k.thread x with queue := some q } : Thread cfg Q).Running := by
    intro runs
    rw [show (k.thread x).state = .running from runs] at asleep
    simp [ThreadState.running] at asleep
  have away : x ≠ idle := by
    rintro rfl
    exact stopped off.idleRuns
  have rep : (k.enqueue q x).lists.Represents L' := placeNode_represents off.rep off.absent
  have mem : x ∈ L' (.wait q) := by simp [hL]
  have others : ∀ t, t ≠ x → ∀ i, t ∈ L' i ↔ t ∈ L i := by
    intro t ne i
    by_cases same : i = .wait q
    · subst same; simp [hL, ne]
    · simp [hL, same]
  refine ⟨⟨rep, ?_, ?_, ?_⟩, ?_, ?_⟩
  · intro p
    simpa [hL, mapBit, Kernel.enqueue] using off.map p
  · simpa [Ne.symm away] using off.idleRuns
  · intro isClean
    simpa [hL, Kernel.enqueue] using off.asserted isClean
  · intro t
    by_cases same : t = x
    · subst same
      intro i
      rw [enqueue_thread, update_self, Thread.location_stopped stopped]
      refine ⟨fun inI => ?_, ?_⟩
      · rw [rep.disjoint inI mem]; rfl
      · rintro ⟨⟩
        exact mem
    · simpa [same] using (off.place t same).update_of_ne (others t same)
  · intro t
    by_cases same : t = x
    · subst same
      simpa using ⟨fun _ => asleep, fun _ => blocked, counted⟩
    · simpa [same] using off.sound t same

end Kernel

end Ecos
