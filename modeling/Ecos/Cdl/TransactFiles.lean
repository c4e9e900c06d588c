import Ecos.Cdl.TransactCommit

namespace Ecos.Cdl.Config
open Function Option Transaction Config List
variable {N S : Type*} {s s' : Config N S} {t u p c d a : Nat} {v : N} {k : Bool}

/-- Every conflict is where its owner says, and is cleared by transactions below the owner, once in each chain. -/
structure Filed (s : Config N S) : Prop extends s.Tree where
  top : ∀ k, ∀ c ∈ s.conflicts k, (s.conf c).transaction = none ∧ (s.conf c).structural = k ∧ c < s.nextConflict
  topNodup : ∀ k, (s.conflicts k).Nodup
  new : ∀ t k, s.alive t = true → ∀ c ∈ (s.trans t).newConflicts k,
    (s.conf c).transaction = some t ∧ (s.conf c).structural = k ∧ c < s.nextConflict
  newNodup : ∀ t k, s.alive t = true → ((s.trans t).newConflicts k).Nodup
  deleted : ∀ t k, s.alive t = true → ∀ c ∈ (s.trans t).deletedConflicts k, (s.conf c).structural = k ∧
    c < s.nextConflict ∧ ((s.conf c).transaction = none ∨ ∃ a ∈ s.above t, (s.conf c).transaction = some a)
  deletedNodup : ∀ t k, s.alive t = true → ((s.trans t).deletedConflicts k).Nodup
  listed : ∀ t k, s.alive t = true → s.stale t = false → ∀ c ∈ (s.trans t).deletedConflicts k, ∀ a,
    (s.conf c).transaction = some a → c ∈ (s.trans a).newConflicts k
  cleared : ∀ t k, s.alive t = true → s.stale t = false → ∀ c ∈ (s.trans t).deletedConflicts k,
    ∀ a ∈ s.above t, c ∉ (s.trans a).deletedConflicts k

theorem Filed.same (filed : s.Filed) (files : SameFiles s s') : s'.Filed := by
  have above (t : Nat) : s'.above t = s.above t := above_same files.parent
  refine ⟨filed.toTree.same files.parent files.alive files.transaction files.nextTransaction, ?_, ?_, ?_, ?_, ?_, ?_,
    ?_, ?_⟩
  · intro k c mem
    rw [files.conflicts] at mem
    rw [files.owner, files.structural, files.nextConflict]
    exact filed.top k c mem
  · rw [files.conflicts]
    exact filed.topNodup
  · intro t k alive c mem
    rw [files.alive] at alive
    rw [files.new] at mem
    rw [files.owner, files.structural, files.nextConflict]
    exact filed.new t k alive c mem
  · intro t k alive
    rw [files.alive] at alive
    rw [files.new]
    exact filed.newNodup t k alive
  · intro t k alive c mem
    rw [files.alive] at alive
    rw [files.deleted] at mem
    rw [files.owner, files.structural, files.nextConflict, above]
    exact filed.deleted t k alive c mem
  · intro t k alive
    rw [files.alive] at alive
    rw [files.deleted]
    exact filed.deletedNodup t k alive
  · intro t k alive fresh c mem a owned
    rw [files.alive] at alive
    rw [files.stale] at fresh
    rw [files.deleted] at mem
    rw [files.owner] at owned
    rw [files.new]
    exact filed.listed t k alive fresh c mem a owned
  · intro t k alive fresh c mem a up
    rw [files.alive] at alive
    rw [files.stale] at fresh
    rw [files.deleted] at mem ⊢
    rw [above] at up
    exact filed.cleared t k alive fresh c mem a up

theorem Filed.start (start : s.Start) : s.Filed := by
  have none (t : Nat) : ¬ s.alive t = true := by simp [start.alive t]
  refine ⟨⟨fun t _ alive => absurd alive (none t), fun t alive => absurd alive (none t),
    fun t alive => absurd alive (none t)⟩, ?_, start.nodup, fun t _ alive => absurd alive (none t),
    fun t _ alive => absurd alive (none t), fun t _ alive => absurd alive (none t), fun t _ alive => absurd alive (none t),
    fun t _ alive => absurd alive (none t), fun t _ alive => absurd alive (none t)⟩
  intro k c mem
  obtain ⟨live, kind⟩ := (start.conflicts k c).mp mem
  obtain ⟨owner, bound⟩ := start.live c live
  exact ⟨owner, kind, bound⟩

theorem Filed.listed_owner (filed : s.Filed) (alive : s.alive t = true) (mem : c ∈ s.listed t k) :
    (s.conf c).structural = k ∧ c < s.nextConflict ∧ ((s.conf c).transaction = none ∧ c ∈ s.conflicts k ∨
      ∃ a ∈ s.lineage t, (s.conf c).transaction = some a ∧ c ∈ (s.trans a).newConflicts k) := by
  rw [Config.listed, mem_append, mem_flatMap] at mem
  rcases mem with ⟨a, up, new⟩ | top
  · obtain ⟨owner, kind, bound⟩ := filed.new a k (filed.lineage_alive alive a up).1 c new
    exact ⟨kind, bound, .inr ⟨a, up, owner, new⟩⟩
  · obtain ⟨owner, kind, bound⟩ := filed.top k c top
    exact ⟨kind, bound, .inl ⟨owner, top⟩⟩

theorem Filed.shrink (filed : s.Filed) (tree : s'.Tree) (there : ∀ u, s'.alive u = true → s.alive u = true ∨
      ∀ k, (s'.trans u).newConflicts k = [] ∧ (s'.trans u).deletedConflicts k = [])
    (above : ∀ u, s.alive u = true → s'.alive u = true → s'.above u = s.above u)
    (stale : ∀ u, s.alive u = true → s'.stale u = false → s.stale u = false) (conflicts : s'.conflicts = s.conflicts)
    (owner : ∀ c, (s'.conf c).transaction = (s.conf c).transaction)
    (structural : ∀ c, (s'.conf c).structural = (s.conf c).structural) (next : s'.nextConflict = s.nextConflict)
    (new : ∀ u k, s.alive u = true → ((s'.trans u).newConflicts k).Sublist ((s.trans u).newConflicts k))
    (deleted : ∀ u k, s.alive u = true → ((s'.trans u).deletedConflicts k).Sublist ((s.trans u).deletedConflicts k))
    (kept : ∀ u k, s.alive u = true → s'.alive u = true → ∀ c ∈ (s'.trans u).deletedConflicts k, ∀ a ∈ s.above u,
      c ∈ (s.trans a).newConflicts k → c ∈ (s'.trans a).newConflicts k) : s'.Filed := by
  have old {u c : Nat} {k : Bool} (alive : s'.alive u = true)
      (mem : c ∈ (s'.trans u).newConflicts k ∨ c ∈ (s'.trans u).deletedConflicts k) : s.alive u = true := by
    refine (there u alive).resolve_right fun empty => ?_
    rw [(empty k).1, (empty k).2] at mem
    exact mem.elim not_mem_nil not_mem_nil
  refine ⟨tree, ?_, ?_, ?_, ?_, ?_, ?_, ?_, ?_⟩
  · intro k c mem
    rw [conflicts] at mem
    rw [owner, structural, next]
    exact filed.top k c mem
  · rw [conflicts]
    exact filed.topNodup
  · intro u k alive c mem
    have was := old alive (.inl mem)
    rw [owner, structural, next]
    exact filed.new u k was c ((new u k was).subset mem)
  · intro u k alive
    rcases there u alive with was | empty
    · exact (new u k was).nodup (filed.newNodup u k was)
    · rw [(empty k).1]
      exact nodup_nil
  · intro u k alive c mem
    have was := old alive (.inr mem)
    rw [owner, structural, next, above u was alive]
    exact filed.deleted u k was c ((deleted u k was).subset mem)
  · intro u k alive
    rcases there u alive with was | empty
    · exact (deleted u k was).nodup (filed.deletedNodup u k was)
    · rw [(empty k).2]
      exact nodup_nil
  · intro u k alive fresh c mem a owned
    have was := old alive (.inr mem)
    have before := (deleted u k was).subset mem
    rw [owner] at owned
    have up : a ∈ s.above u := by
      rcases (filed.deleted u k was c before).2.2 with none | ⟨b, up, is⟩
      · rw [owned] at none
        exact absurd none (some_ne_none a)
      · rwa [some.inj (owned.symm.trans is)]
    exact kept u k was alive c mem a up (filed.listed u k was (stale u was fresh) c before a owned)
  · intro u k alive fresh c mem a up cleared
    have was := old alive (.inr mem)
    rw [above u was alive] at up
    have aliveAbove := (filed.above_alive was a up).1
    exact filed.cleared u k was (stale u was fresh) c ((deleted u k was).subset mem) a up
      ((deleted a k aliveAbove).subset cleared)

/-! The acts that move conflicts -/

section
variable (filed : s.Filed)
include filed

theorem Filed.newConflict {node : N} {property : Nat} (innermost : s.Innermost t) :
    (s.newConflict t node property k).Filed := by
  obtain ⟨alive, -, leaf⟩ := innermost
  let s' := s.newConflict t node property k
  have within : Within (· = t) s s' := within_newConflict
  have owner (c : Nat) (old : c < s.nextConflict) : (s'.conf c).transaction = (s.conf c).transaction := by
    simp [s', Config.newConflict, modify, ne_of_lt old]
  have fresh : (s'.conf s.nextConflict).transaction = some t ∧ (s'.conf s.nextConflict).structural = k := by
    simp [s', Config.newConflict, modify]
  have new (j : Bool) : (s'.trans t).newConflicts j =
      if j = k then (s.trans t).newConflicts k ++ [s.nextConflict] else (s.trans t).newConflicts j := by
    by_cases same : j = k
    · subst same
      simp [s', newConflict, modify, pushNew]
    · simp [s', Config.newConflict, modify, pushNew, same]
  have deleted (u : Nat) : (s'.trans u).deletedConflicts = (s.trans u).deletedConflicts := by
    by_cases same : u = t
    · subst same
      simp [s', newConflict, modify, pushNew]
    · rw [within.others u same]
  have grown (u : Nat) (j : Bool) (c : Nat) (mem : c ∈ (s.trans u).newConflicts j) :
      c ∈ (s'.trans u).newConflicts j := by
    by_cases same : u = t
    · subst same
      rw [new]
      split
      · rename_i is
        exact mem_append_left _ (is ▸ mem)
      · exact mem
    · rwa [within.others u same]
  have above (u : Nat) : s'.above u = s.above u := above_same within.parent
  refine ⟨filed.toTree.same within.parent within.alive within.transaction within.nextTransaction, ?_, filed.topNodup,
    ?_, ?_, ?_, ?_, ?_, ?_⟩
  · intro j c mem
    obtain ⟨is, kind, bound⟩ := filed.top j c mem
    exact ⟨(owner c bound).trans is, (within.structural c bound).trans kind, Nat.lt_succ_of_lt bound⟩
  · intro u j there c mem
    have old (was : c ∈ (s.trans u).newConflicts j) : (s'.conf c).transaction = some u ∧
        (s'.conf c).structural = j ∧ c < s'.nextConflict := by
      obtain ⟨is, kind, bound⟩ := filed.new u j there c was
      exact ⟨(owner c bound).trans is, (within.structural c bound).trans kind, Nat.lt_succ_of_lt bound⟩
    by_cases same : u = t
    · subst same
      have mem : c ∈ (s'.trans u).newConflicts j := mem
      rw [new] at mem
      split at mem
      · rename_i is
        subst is
        rcases mem_append.mp mem with was | now
        · exact old was
        · rw [mem_singleton] at now
          subst now
          exact ⟨fresh.1, fresh.2, Nat.lt_succ_self _⟩
      · exact old mem
    · have mem : c ∈ (s'.trans u).newConflicts j := mem
      rw [within.others u same] at mem
      exact old mem
  · intro u j there
    by_cases same : u = t
    · subst same
      rw [new]
      split
      · rename_i is
        refine Nodup.append (filed.newNodup u k there) (nodup_singleton _) ?_
        rw [disjoint_singleton]
        exact fun mem => lt_irrefl _ (filed.new u k there _ mem).2.2
      · exact filed.newNodup u j there
    · rw [within.others u same]
      exact filed.newNodup u j there
  · intro u j there c mem
    have mem : c ∈ (s'.trans u).deletedConflicts j := mem
    rw [deleted] at mem
    obtain ⟨kind, bound, owned⟩ := filed.deleted u j there c mem
    refine ⟨(within.structural c bound).trans kind, Nat.lt_succ_of_lt bound, ?_⟩
    rw [owner c bound, above]
    exact owned
  · intro u j there
    rw [deleted]
    exact filed.deletedNodup u j there
  · intro u j there fresh c mem a owned
    have mem : c ∈ (s'.trans u).deletedConflicts j := mem
    rw [deleted] at mem
    have bound := (filed.deleted u j there c mem).2.1
    exact grown a j c (filed.listed u j there fresh c mem a ((owner c bound).symm.trans owned))
  · intro u j there fresh c mem a up
    have mem : c ∈ (s'.trans u).deletedConflicts j := mem
    have up : a ∈ s'.above u := up
    rw [deleted] at mem ⊢
    rw [above] at up
    exact filed.cleared u j there fresh c mem a up

theorem Filed.clearOwn (innermost : s.Innermost t) : (((s.touch c).modify t (·.eraseNew k c)).destroy c).Filed := by
  obtain ⟨alive, -, leaf⟩ := innermost
  let s' := ((s.touch c).modify t (·.eraseNew k c)).destroy c
  have within : Within (· = t) s s' := by
    refine Within.trans (Within.trans (within_touch (c := c)) ?_) within_destroy
    exact within_modify rfl fun _ => ⟨rfl, rfl⟩
  have self : s'.trans t = (s.trans t).eraseNew k c := modify_self
  have tree : s'.Tree := filed.toTree.same within.parent rfl rfl rfl
  refine filed.shrink tree (fun u there => .inl there)
    (fun u _ _ => above_same within.parent) (fun u _ fresh => fresh) rfl (fun _ => rfl) (fun _ => rfl) rfl ?_ ?_ ?_
  · intro u j there
    by_cases same : u = t
    · subst same
      rw [self]
      by_cases kind : j = k
      · subst kind
        simpa [eraseNew] using erase_sublist
      · simp [eraseNew, kind]
    · rw [within.others u same]
  · intro u j there
    by_cases same : u = t
    · subst same
      rw [self]
      exact .refl _
    · rw [within.others u same]
  · intro u j there _ d _ a up new
    have other : a ≠ t := fun is => filed.leaf_above leaf there (is ▸ up)
    rwa [within.others a other]

theorem Filed.made (tree : s'.Tree) (conflicts : s'.conflicts = s.conflicts) (conf : s'.conf = s.conf)
    (next : s'.nextConflict = s.nextConflict)
    (old : ∀ u, s.alive u = true → s'.trans u = s.trans u ∧ s'.stale u = s.stale u)
    (there : ∀ u, s'.alive u = true → s.alive u = true ∨
      ∀ k, (s'.trans u).newConflicts k = [] ∧ (s'.trans u).deletedConflicts k = []) : s'.Filed := by
  refine filed.shrink tree there ?_ ?_ conflicts (fun _ => by rw [conf]) (fun _ => by rw [conf]) next ?_ ?_ ?_
  · exact fun u there there' => filed.above_kept tree (fun t alive => by rw [(old t alive).1]) there there'
  · intro u there fresh
    rwa [(old u there).2] at fresh
  · intro u k there
    rw [(old u there).1]
  · intro u k there
    rw [(old u there).1]
  · intro u k there _ d _ a up new
    rwa [(old a (filed.above_alive there a up).1).1]

theorem Filed.makeTop (idle : s.transaction = none) : s.makeTop.Filed := by
  refine filed.made (filed.toTree.makeTop idle) rfl rfl rfl (fun u there => ?_) fun u there => ?_
  · simp [Config.makeTop, ne_of_lt (filed.bound u there)]
  · by_cases same : u = s.nextTransaction
    · subst same
      right
      simp [Config.makeTop, Transaction.made]
    · simp only [Config.makeTop, update_of_ne same] at there
      exact .inl there

theorem Filed.makeSub (from' : s.alive t = true) {conflict : Option Nat} : (s.makeSub t conflict).Filed := by
  refine filed.made (filed.toTree.makeSub from') rfl rfl rfl (fun u there => ?_) fun u there => ?_
  · simp [Config.makeSub, ne_of_lt (filed.bound u there)]
  · by_cases same : u = s.nextTransaction
    · subst same
      right
      simp [Config.makeSub, Transaction.made]
    · simp only [Config.makeSub, update_of_ne same] at there
      exact .inl there

theorem Filed.delete (leaf : s.Leaf t) (alive : s.alive t = true) : (s.delete t).Filed := by
  have tree := filed.toTree.delete leaf alive
  refine filed.shrink tree ?_ ?_ (fun _ _ fresh => fresh) rfl (fun _ => rfl) (fun _ => rfl) rfl (fun _ _ _ => .refl _)
    (fun _ _ _ => .refl _) (fun _ _ _ _ _ _ _ _ new => new)
  · intro u there
    by_cases same : u = t
    · subst same
      simp [delete] at there
    · simp only [Config.delete, update_of_ne same] at there
      exact .inl there
  · exact fun u there there' => filed.above_kept tree (fun _ _ => rfl) there there'

theorem Filed.cancel (leaf : s.Leaf t) : (s.cancel t).Filed := by
  have within : Within (· = t) s (s.cancel t) := within_cancel
  obtain ⟨self, owner, structural, stale, next⟩ := cancel_spec (s := s) (t := t)
  refine filed.shrink (filed.toTree.same within.parent within.alive within.transaction within.nextTransaction) ?_ ?_ ?_
    within.conflicts owner structural next ?_ ?_ ?_
  · exact fun u there => .inl (within.alive ▸ there)
  · exact fun u _ _ => above_same within.parent
  · intro u _ fresh
    rwa [stale] at fresh
  · intro u k there
    by_cases same : u = t
    · subst same
      rw [self]
      exact nil_sublist _
    · rw [within.others u same]
  · intro u k there
    by_cases same : u = t
    · subst same
      rw [self]
      exact nil_sublist _
    · rw [within.others u same]
  · intro u k there _ d _ a up new
    have other : a ≠ t := fun is => filed.leaf_above leaf there (is ▸ up)
    rwa [within.others a other]

theorem Filed.clearOther (innermost : s.Innermost t)
    (mem : c ∈ s.listed t (s.conf c).structural) (visible : s.hasConflictBeenCleared t c = false)
    (other : (s.conf c).transaction ≠ some t) :
    ((s.touch c).modify t (·.pushDeleted (s.conf c).structural c)).Filed := by
  obtain ⟨alive, fresh, leaf⟩ := innermost
  obtain ⟨-, bound, place⟩ := filed.listed_owner alive mem
  let k := (s.conf c).structural
  let s' := (s.touch c).modify t (·.pushDeleted k c)
  have within : Within (· = t) s s' := by
    refine (within_touch (c := c)).trans ?_
    exact within_modify rfl fun _ => ⟨rfl, rfl⟩
  have above (u : Nat) : s'.above u = s.above u := above_same within.parent
  have new (u : Nat) : (s'.trans u).newConflicts = (s.trans u).newConflicts := by
    by_cases same : u = t
    · subst same
      simp [s', modify, touch, pushDeleted]
    · rw [within.others u same]
  have self (j : Bool) : (s'.trans t).deletedConflicts j =
      if j = k then (s.trans t).deletedConflicts k ++ [c] else (s.trans t).deletedConflicts j := by
    by_cases kind : j = k
    · subst kind
      simp [s', modify, touch, pushDeleted]
    · simp [s', modify, touch, pushDeleted, kind]
  have uncleared : ∀ a ∈ s.lineage t, c ∉ (s.trans a).deletedConflicts k := by
    intro a up cleared
    have found : s.hasConflictBeenCleared t c = true := any_eq_true.mpr ⟨a, up, by simpa using cleared⟩
    rw [visible] at found
    exact Bool.noConfusion found
  rw [filed.lineage_cons alive] at place uncleared
  have owned : (s.conf c).transaction = none ∨
      ∃ a ∈ s.above t, (s.conf c).transaction = some a ∧ c ∈ (s.trans a).newConflicts k := by
    rcases place with ⟨none, -⟩ | ⟨a, up, is, new⟩
    · exact .inl none
    · rcases mem_cons.mp up with rfl | up
      · exact absurd is other
      · exact .inr ⟨a, up, is, new⟩
  have split {u j d} (mem : d ∈ (s'.trans u).deletedConflicts j) :
      d ∈ (s.trans u).deletedConflicts j ∨ u = t ∧ j = k ∧ d = c := by
    by_cases same : u = t
    · subst same
      rw [self] at mem
      split at mem
      · rename_i kind
        subst kind
        rcases mem_append.mp mem with was | now
        · exact .inl was
        · exact .inr ⟨rfl, rfl, mem_singleton.mp now⟩
      · exact .inl mem
    · rw [within.others u same] at mem
      exact .inl mem
  refine ⟨filed.toTree.same within.parent rfl rfl rfl, filed.top, filed.topNodup, ?_, ?_, ?_, ?_, ?_, ?_⟩
  · intro u j there d mem
    have mem : d ∈ (s'.trans u).newConflicts j := mem
    rw [new] at mem
    exact filed.new u j there d mem
  · intro u j there
    rw [new]
    exact filed.newNodup u j there
  · intro u j there d mem
    change (s.conf d).structural = j ∧ d < s.nextConflict ∧
      ((s.conf d).transaction = none ∨ ∃ a ∈ s'.above u, (s.conf d).transaction = some a)
    rw [above]
    rcases split mem with was | ⟨rfl, rfl, rfl⟩
    · exact filed.deleted u j there d was
    · exact ⟨rfl, bound, owned.imp_right (Exists.imp fun _ => And.imp_right And.left)⟩
  · intro u j there
    by_cases same : u = t
    · subst same
      rw [self]
      split
      · refine Nodup.append (filed.deletedNodup u k there) (nodup_singleton _) ?_
        rw [disjoint_singleton]
        exact uncleared u mem_cons_self
      · exact filed.deletedNodup u j there
    · rw [within.others u same]
      exact filed.deletedNodup u j there
  · intro u j there fresh' d mem a is
    rw [new]
    rcases split mem with was | ⟨rfl, rfl, rfl⟩
    · exact filed.listed u j there fresh' d was a is
    · rcases owned with none | ⟨b, -, is', new⟩
      · exact absurd (none.symm.trans is) (some_ne_none a).symm
      · rwa [some.inj (is.symm.trans is')]
  · intro u j there fresh' d mem a up
    have strict : a ∈ s.above u := (above u) ▸ up
    have still : a ≠ t := fun is => filed.leaf_above leaf there (is ▸ strict)
    rw [within.others a still]
    rcases split mem with was | ⟨rfl, rfl, rfl⟩
    · exact filed.cleared u j there fresh' d was a strict
    · exact uncleared a (mem_cons_of_mem _ strict)

end

theorem Within.leaf {W : Nat → Prop} (within : Within W s s') (leaf : s.Leaf t) : s'.Leaf t := by
  intro u bound there
  rw [within.nextTransaction] at bound
  rw [within.alive] at there
  rw [within.parent]
  exact leaf u bound there

theorem sameFiles_conf {f : Conflict N S → Conflict N S}
    (keeps : ∀ conf, (f conf).transaction = conf.transaction ∧ (f conf).structural = conf.structural ∧
      (f conf).node = conf.node ∧ (f conf).property = conf.property) : SameFiles s ((s.touch c).modifyConf c f) :=
  sameFiles_touch.trans (sameFiles_modifyConf keeps)

theorem sameFiles_noteGlobal : SameFiles s (s.modify p (·.noteGlobal c)) := by
  refine sameFiles_modify fun r => ?_
  unfold noteGlobal
  split <;> exact ⟨rfl, rfl, rfl, rfl, rfl⟩

theorem Filed.clearConflict (filed : s.Filed) (innermost : s.Innermost t)
    (mem : c ∈ s.listed t (s.conf c).structural) (visible : s.hasConflictBeenCleared t c = false) :
    (s.clearConflict t c).Filed := by
  unfold Config.clearConflict
  dsimp only
  split
  · exact filed.clearOwn innermost
  · rename_i other
    exact filed.clearOther innermost mem visible other

theorem Filed.resolveFailed (filed : s.Filed) (innermost : s.Innermost t) : (s.resolveFailed t c).Filed := by
  have within : Within (· = t) s (s.cancel t) := within_cancel
  have alive : (s.cancel t).alive t = true := (congrFun within.alive t).trans innermost.1
  refine ((filed.cancel innermost.2.2).delete (within.leaf innermost.2.2) alive).same ?_
  exact sameFiles_conf (c := c) (f := fun conf => { conf with noSolution := true }) fun _ => ⟨rfl, rfl, rfl, rfl⟩

theorem within_saveSolution : Within (· = t) s (s.saveSolution t c) := by
  refine Within.trans (within_touch (c := c)) (Within.trans ?_ within_cancel)
  exact within_modifyConf fun _ => ⟨rfl, rfl, rfl⟩

theorem Filed.saveSolution (filed : s.Filed) (leaf : s.Leaf t) : (s.saveSolution t c).Filed := by
  refine Filed.cancel (s := (s.touch c).modifyConf c _) (filed.same (sameFiles_conf fun _ => ⟨rfl, rfl, rfl, rfl⟩)) ?_
  exact leaf

theorem Filed.resolveSaved (filed : s.Filed) (innermost : s.Innermost t) : (s.resolveSaved t p c).Filed := by
  have saved : Within (· = t) s ((s.saveSolution t c).cancel t) := within_saveSolution.trans within_cancel
  have alive : ((s.saveSolution t c).cancel t).alive t = true := (congrFun saved.alive t).trans innermost.1
  have leaf := innermost.2.2
  have ended := ((filed.saveSolution (c := c) leaf).cancel (within_saveSolution.leaf leaf)).delete (saved.leaf leaf) alive
  have looked := ended.same (sameFiles_touch (c := c))
  unfold Config.resolveSaved
  dsimp only
  split
  · exact looked.same sameFiles_noteGlobal
  · exact looked

variable [DecidableEq N]

/-! Commit -/

omit [DecidableEq N] in
theorem Tree.below_parent (tree : s.Tree) (innermost : s.Innermost t) (siblings : s.SiblingsLeft t)
    (parent : (s.trans t).parent = some p) (alive : s.alive u = true) (up : p ∈ s.above u) :
    (s.trans u).parent = some p := by
  obtain ⟨w, mem, child⟩ := tree.above_child alive up
  have there := (tree.lineage_alive alive w mem).1
  have left : s.Leaf w := by
    by_cases same : w = t
    · exact same ▸ innermost.2.2
    · exact siblings w (tree.bound w there) there (child.trans parent.symm) (by rw [parent]; exact some_ne_none p)
  have here : u = w := by
    by_contra other
    exact tree.leaf_lineage left alive other mem
  exact here ▸ child

theorem Tree.below_commit (tree : s.Tree) (innermost : s.Innermost t) (siblings : s.SiblingsLeft t)
    (parent : (s.trans t).parent = some p) (alive : s.alive u = true) (fresh : (s.commitSub t p).stale u = false)
    (up : p ∈ s.above u) : u = t :=
  (commitSub_stale fresh).2 alive (tree.below_parent innermost siblings parent alive up)

theorem Filed.commitSub_spec (filed : s.Filed) (alive : s.alive t = true) (parent : (s.trans t).parent = some p) :
    (∀ k, ((s.commitSub t p).trans p).newConflicts k =
      ((s.trans p).newConflicts k).diff ((s.trans t).deletedConflicts k) ++ (s.trans t).newConflicts k) ∧
    (∀ k, ((s.commitSub t p).trans p).deletedConflicts k = (s.trans p).deletedConflicts k ++
      ((s.trans t).deletedConflicts k).filter (· ∉ (s.trans p).newConflicts k)) ∧
    (∀ c, (s.conf c).transaction ≠ some t → ((s.commitSub t p).conf c).transaction = (s.conf c).transaction) ∧
    ∀ k, ∀ c ∈ (s.trans t).newConflicts k, ((s.commitSub t p).conf c).transaction = some p := by
  obtain ⟨older, there⟩ := filed.older t p alive parent
  have core := core_commitSub (s := s) (ne_of_lt older)
  have lists (k : Bool) := @merged_lists _ _ k (s.trans t) (s.trans p).core _
    (fun k => filed.newNodup p k there) fun k => filed.deletedNodup t k alive
  refine ⟨?_, ?_, ?_, ?_⟩
  · intro k
    exact (congrArg (newConflicts · k) core).trans (lists k).1
  · intro k
    exact (congrArg (deletedConflicts · k) core).trans (lists k).2
  · intro c other
    refine transfer_owner.trans (if_neg ?_)
    rintro (new | new | resolved)
    · exact other (filed.new t false alive c new).1
    · exact other (filed.new t true alive c new).1
    · exact other resolved.2
  · intro k c mem
    refine transfer_owner.trans (if_pos ?_)
    cases k with
    | false => exact .inl mem
    | true => exact .inr (.inl mem)

theorem Filed.commitSub (filed : s.Filed) (innermost : s.Innermost t) (siblings : s.SiblingsLeft t)
    (parent : (s.trans t).parent = some p) : (s.commitSub t p).Filed := by
  obtain ⟨alive, fresh, leaf⟩ := id innermost
  obtain ⟨older, there⟩ := filed.older t p alive parent
  obtain ⟨new, deleted, keeps, moves⟩ := filed.commitSub_spec alive parent
  have within : Within (fun u => u = t ∨ u = p) s (s.commitSub t p) := within_commitSub
  have self := (commitSub_trans (s := s) (ne_of_lt older)).1
  have above (u : Nat) : (s.commitSub t p).above u = s.above u := above_same within.parent
  have chain : s.above t = p :: s.above p := (above_sub parent).trans (filed.lineage_cons there)
  have old {c : Nat} (bound : c < s.nextConflict) : c < (s.commitSub t p).nextConflict :=
    lt_of_lt_of_le bound within.nextConflict
  have apart {u : Nat} (alive' : s.alive u = true) : t ∉ s.above u := filed.leaf_above leaf alive'
  -- where a conflict of one of the lists was before
  have wasNew {u c : Nat} {k : Bool} (mem : c ∈ ((s.commitSub t p).trans u).newConflicts k) :
      c ∈ (s.trans u).newConflicts k ∧ u ≠ t ∨ u = p ∧ c ∈ (s.trans t).newConflicts k := by
    by_cases isSelf : u = t
    · subst isSelf
      rw [self] at mem
      exact absurd mem not_mem_nil
    by_cases isParent : u = p
    · subst isParent
      rw [new] at mem
      rcases mem_append.mp mem with was | now
      · exact .inl ⟨(diff_subset _ _) was, isSelf⟩
      · exact .inr ⟨rfl, now⟩
    · rw [within.others u (not_or.mpr ⟨isSelf, isParent⟩)] at mem
      exact .inl ⟨mem, isSelf⟩
  have wasDeleted {u c : Nat} {k : Bool} (mem : c ∈ ((s.commitSub t p).trans u).deletedConflicts k) :
      c ∈ (s.trans u).deletedConflicts k ∧ u ≠ t ∨
        u = p ∧ c ∈ (s.trans t).deletedConflicts k ∧ c ∉ (s.trans p).newConflicts k := by
    by_cases isSelf : u = t
    · subst isSelf
      rw [self] at mem
      exact absurd mem not_mem_nil
    by_cases isParent : u = p
    · subst isParent
      rw [deleted] at mem
      rcases mem_append.mp mem with was | now
      · exact .inl ⟨was, isSelf⟩
      · obtain ⟨from', apart⟩ := mem_filter.mp now
        exact .inr ⟨rfl, from', by simpa using apart⟩
    · rw [within.others u (not_or.mpr ⟨isSelf, isParent⟩)] at mem
      exact .inl ⟨mem, isSelf⟩
  have notOwned {u c : Nat} {k : Bool} (alive' : s.alive u = true) (mem : c ∈ (s.trans u).deletedConflicts k) :
      (s.conf c).transaction ≠ some t := by
    intro is
    rcases (filed.deleted u k alive' c mem).2.2 with none | ⟨a, up, owned⟩
    · rw [is] at none
      exact some_ne_none t none
    · exact apart alive' (some.inj (is.symm.trans owned) ▸ up)
  refine ⟨filed.toTree.same within.parent within.alive within.transaction within.nextTransaction, ?_, ?_, ?_, ?_, ?_, ?_,
    ?_, ?_⟩
  · intro k c mem
    rw [within.conflicts] at mem
    obtain ⟨owner, kind, bound⟩ := filed.top k c mem
    refine ⟨(keeps c ?_).trans owner, (within.structural c bound).trans kind, old bound⟩
    rw [owner]
    exact (some_ne_none t).symm
  · rw [within.conflicts]
    exact filed.topNodup
  · intro u k alive' c mem
    rw [within.alive] at alive'
    rcases wasNew mem with ⟨was, other⟩ | ⟨rfl, now⟩
    · obtain ⟨owner, kind, bound⟩ := filed.new u k alive' c was
      refine ⟨(keeps c ?_).trans owner, (within.structural c bound).trans kind, old bound⟩
      rw [owner]
      exact fun is => other (some.inj is)
    · obtain ⟨-, kind, bound⟩ := filed.new t k alive c now
      exact ⟨moves k c now, (within.structural c bound).trans kind, old bound⟩
  · intro u k alive'
    rw [within.alive] at alive'
    by_cases isSelf : u = t
    · subst isSelf
      rw [self]
      exact nodup_nil
    by_cases isParent : u = p
    · subst isParent
      rw [new]
      refine Nodup.append (filed.newNodup u k there).diff (filed.newNodup t k alive) ?_
      intro c was now
      have owner := (filed.new u k there c ((diff_subset _ _) was)).1
      rw [(filed.new t k alive c now).1] at owner
      exact isSelf (some.inj owner).symm
    · rw [within.others u (not_or.mpr ⟨isSelf, isParent⟩)]
      exact filed.newNodup u k alive'
  · intro u k alive' c mem
    rw [within.alive] at alive'
    rw [above]
    rcases wasDeleted mem with ⟨was, other⟩ | ⟨rfl, now, notOwn⟩
    · obtain ⟨kind, bound, owned⟩ := filed.deleted u k alive' c was
      rw [keeps c (notOwned alive' was)]
      exact ⟨(within.structural c bound).trans kind, old bound, owned⟩
    · obtain ⟨kind, bound, owned⟩ := filed.deleted t k alive c now
      rw [keeps c (notOwned alive now)]
      refine ⟨(within.structural c bound).trans kind, old bound, owned.imp_right ?_⟩
      rintro ⟨a, up, is⟩
      rw [chain] at up
      rcases mem_cons.mp up with rfl | up
      · exact absurd (filed.listed t k alive fresh c now a is) notOwn
      · exact ⟨a, up, is⟩
  · intro u k alive'
    rw [within.alive] at alive'
    by_cases isSelf : u = t
    · subst isSelf
      rw [self]
      exact nodup_nil
    by_cases isParent : u = p
    · subst isParent
      rw [deleted]
      refine Nodup.append (filed.deletedNodup u k there) ((filed.deletedNodup t k alive).filter _) ?_
      intro c was now
      exact filed.cleared t k alive fresh c (mem_of_mem_filter now) u (chain ▸ mem_cons_self) was
    · rw [within.others u (not_or.mpr ⟨isSelf, isParent⟩)]
      exact filed.deletedNodup u k alive'
  · intro u k alive' fresh' c mem a is
    rw [within.alive] at alive'
    have before := (commitSub_stale fresh').1
    have claim : (s.conf c).transaction = some a ∧ c ∈ (s.trans a).newConflicts k ∧ a ∈ s.above u ∧ u ≠ t := by
      rcases wasDeleted mem with ⟨was, other⟩ | ⟨rfl, now, notOwn⟩
      · rw [keeps c (notOwned alive' was)] at is
        refine ⟨is, filed.listed u k alive' before c was a is, ?_, other⟩
        rcases (filed.deleted u k alive' c was).2.2 with none | ⟨b, up, owned⟩
        · exact absurd (none.symm.trans is) (some_ne_none a).symm
        · rwa [some.inj (is.symm.trans owned)]
      · rw [keeps c (notOwned alive now)] at is
        have listed := filed.listed t k alive fresh c now a is
        refine ⟨is, listed, ?_, ne_of_lt older⟩
        rcases (filed.deleted t k alive c now).2.2 with none | ⟨b, up, owned⟩
        · exact absurd (none.symm.trans is) (some_ne_none a).symm
        · rw [← some.inj (is.symm.trans owned), chain] at up
          rcases mem_cons.mp up with rfl | up
          · exact absurd listed notOwn
          · exact up
    obtain ⟨-, listed, up, other⟩ := claim
    have notSelf : a ≠ t := fun same => apart alive' (same ▸ up)
    have notParent : a ≠ p := by
      rintro rfl
      exact other (filed.toTree.below_commit innermost siblings parent alive' fresh' up)
    rwa [within.others a (not_or.mpr ⟨notSelf, notParent⟩)]
  · intro u k alive' fresh' c mem a up cleared
    rw [within.alive] at alive'
    rw [above] at up
    have before := (commitSub_stale fresh').1
    have other : u ≠ t := by
      rintro rfl
      rw [self] at mem
      exact absurd mem not_mem_nil
    have notSelf : a ≠ t := fun same => apart alive' (same ▸ up)
    have notParent : a ≠ p := by
      rintro rfl
      exact other (filed.toTree.below_commit innermost siblings parent alive' fresh' up)
    rw [within.others a (not_or.mpr ⟨notSelf, notParent⟩)] at cleared
    rcases wasDeleted mem with ⟨was, -⟩ | ⟨rfl, now, -⟩
    · exact filed.cleared u k alive' before c was a up cleared
    · exact filed.cleared t k alive fresh c now a (chain ▸ mem_cons_of_mem _ up) cleared

theorem commitTop_spec (s : Config N S) (t : Nat) :
    (s.commitTop t).trans = update s.trans t (s.trans t).committed ∧ (s.commitTop t).alive = s.alive ∧
    (s.commitTop t).stale = s.stale ∧ (s.commitTop t).transaction = s.transaction ∧
    (s.commitTop t).nextTransaction = s.nextTransaction ∧ (s.commitTop t).nextConflict = s.nextConflict ∧
    (∀ c, ((s.commitTop t).conf c).structural = (s.conf c).structural) := by
  have frame := frame_commitTop (s := s) (t := t)
  simp only [Config.frame, Prod.mk.injEq] at frame
  obtain ⟨trans, alive, stale, transaction, nextTransaction, nextConflict, -, -, -, -, -, structural⟩ := frame
  exact ⟨trans, alive, stale, transaction, nextTransaction, nextConflict, congrFun structural⟩

theorem Filed.commitTop (filed : s.Filed) (innermost : s.Innermost t) (root : (s.trans t).parent = none) :
    (s.commitTop t).Filed := by
  obtain ⟨alive, -, leaf⟩ := innermost
  obtain ⟨trans, alive', stale', transaction, nextTransaction, nextConflict, structural⟩ := commitTop_spec s t
  have parent (u : Nat) : ((s.commitTop t).trans u).parent = (s.trans u).parent := by
    rw [trans]
    by_cases same : u = t
    · subst same
      simp [Transaction.committed, Transaction.made]
    · rw [update_of_ne same]
  have only {u : Nat} (there : (s.commitTop t).alive u = true) : u = t := by
    rw [alive'] at there
    exact filed.root_alone leaf root alive there
  have empty {u : Nat} {k : Bool} (there : (s.commitTop t).alive u = true) :
      ((s.commitTop t).trans u).newConflicts k = [] ∧ ((s.commitTop t).trans u).deletedConflicts k = [] := by
    rw [only there, trans, update_self]
    exact ⟨rfl, rfl⟩
  refine ⟨filed.toTree.same parent alive' transaction nextTransaction, ?_, ?_, ?_, ?_, ?_, ?_, ?_, ?_⟩
  · intro k c mem
    rw [commitTop_conflicts] at mem
    rw [structural, nextConflict, commitTop_owner]
    rcases mem_append.mp ((diff_subset _ _) mem) with top | new
    · obtain ⟨owner, kind, bound⟩ := filed.top k c top
      refine ⟨?_, kind, bound⟩
      rw [owner]
      exact ite_self none
    · obtain ⟨-, kind, bound⟩ := filed.new t k alive c new
      refine ⟨if_pos ?_, kind, bound⟩
      cases k with
      | false => exact .inl new
      | true => exact .inr new
  · intro k
    rw [commitTop_conflicts]
    refine (Nodup.append (filed.topNodup k) (filed.newNodup t k alive) ?_).diff
    intro c top new
    have owner := (filed.top k c top).1
    rw [(filed.new t k alive c new).1] at owner
    exact some_ne_none t owner
  · intro u k there c mem
    rw [(empty there).1] at mem
    exact absurd mem not_mem_nil
  · intro u k there
    rw [(empty there).1]
    exact nodup_nil
  · intro u k there c mem
    rw [(empty there).2] at mem
    exact absurd mem not_mem_nil
  · intro u k there
    rw [(empty there).2]
    exact nodup_nil
  · intro u k there _ c mem
    rw [(empty there).2] at mem
    exact absurd mem not_mem_nil
  · intro u k there _ c mem
    rw [(empty there).2] at mem
    exact absurd mem not_mem_nil

/-! All acts -/

theorem sameFiles_act [BEq S] {e : Act N S} (quiet : match e with
    | .getWholeValue .. | .setWholeValue .. | .setActive .. | .propagateValue _ | .propagateActive _ => True
    | _ => False) : SameFiles s (s.act e) := by
  cases e with
  | getWholeValue t v => exact sameFiles_access _
  | setWholeValue t v new => exact (sameFiles_access _).trans sameFiles_setWholeValue
  | setActive t n state => exact sameFiles_setActive
  | propagateValue t => exact sameFiles_propagateValue
  | propagateActive t => exact sameFiles_propagateActive
  | _ => exact quiet.elim

theorem Filed.commit (filed : s.Filed) (innermost : s.Innermost t) (siblings : s.SiblingsLeft t) :
    (s.commit t).Filed := by
  unfold Config.commit
  split
  · rename_i p parent
    exact filed.commitSub innermost siblings parent
  · rename_i root
    exact filed.commitTop innermost root

theorem Filed.resolveApplied (filed : s.Filed) (innermost : s.Innermost t) (siblings : s.SiblingsLeft t) :
    (s.resolveApplied t c).Filed := by
  let s₁ := (s.touch c).modifyConf c fun conf => { conf with
    solutionReferences := ∅
    noSolution := false
    solution := conf.solution ++ (s.trans t).changes.entries.map fun change => (change.1, change.2) }
  have filed₁ : s₁.Filed := filed.same (sameFiles_conf fun _ => ⟨rfl, rfl, rfl, rfl⟩)
  have committed : (s₁.commit t).Filed := filed₁.commit innermost siblings
  have left : (s₁.commit t).Leaf t ∧ (s₁.commit t).alive t = true := by
    unfold Config.commit
    split
    · exact ⟨within_commitSub.leaf innermost.2.2, (congrFun within_commitSub.alive t).trans innermost.1⟩
    · rename_i root
      obtain ⟨-, alive', -⟩ := commitTop_spec s₁ t
      have there : (s₁.commitTop t).alive t = true := (congrFun alive' t).trans innermost.1
      refine ⟨?_, there⟩
      intro u bound there' parent
      rw [alive'] at there'
      have only := filed₁.root_alone innermost.2.2 root innermost.1 there'
      subst only
      have filed' := filed₁.commitTop innermost root
      exact lt_irrefl _ (filed'.older u u there parent).1
  exact committed.delete left.1 left.2

theorem Filed.act [BEq S] {e : Act N S} (filed : s.Filed) (enabled : s.Enabled e) : (s.act e).Filed := by
  cases e with
  | getWholeValue t v => exact filed.same (sameFiles_act trivial)
  | setWholeValue t v new => exact filed.same (sameFiles_act trivial)
  | setActive t n state => exact filed.same (sameFiles_act trivial)
  | propagateValue t => exact filed.same (sameFiles_act trivial)
  | propagateActive t => exact filed.same (sameFiles_act trivial)
  | newConflict t node property k => exact filed.newConflict enabled
  | clearConflict t c => exact filed.clearConflict enabled.1 enabled.2.1 enabled.2.2
  | makeTop => exact filed.makeTop enabled
  | makeSub t conflict => exact filed.makeSub enabled.1
  | cancel t => exact filed.cancel enabled.2
  | commit t => exact filed.commit enabled.1 enabled.2
  | delete t => exact filed.delete enabled.2.1 enabled.1
  | resolveFailed t c => exact filed.resolveFailed enabled.1
  | resolveSaved t p c => exact filed.resolveSaved enabled.1
  | resolveApplied t c => exact filed.resolveApplied enabled.1 enabled.2.1

theorem Reach.filed [BEq S] (reach : (system N S).Reach s) : s.Filed :=
  reach.kept (fun _ start => .start start) fun _ _ filed enabled => filed.act enabled

end Ecos.Cdl.Config
