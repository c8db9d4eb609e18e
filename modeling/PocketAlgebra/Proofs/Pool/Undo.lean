import PocketAlgebra.Proofs.Pool.Growth

/-!
# Going back

As long as something refers to a node, the node is there, whatever is done with the pool. So a
checkpoint gives back the pool as it was: the nodes that have come up since then take back the
references they had added, and no former node has been freed in the meantime.
-/

namespace PocketAlgebra

namespace Pool

variable {p q : Pool} {key : Nat} {head : Expr} {handles keys : List Nat}

/-! ## Which operands new nodes take -/

/-- A new node takes the operands that it is given, or copies of them. -/
theorem building_names {outcome : Except Shortage Nat} (h : Balanced p [] (keys ++ handles))
    (heq : p.building head keys = (outcome, q)) :
    (∀ key ∈ granted outcome, p.nextKey ≤ key ∧ key ∈ q.keys) ∧
      ∀ node ∈ q.nodes, p.nextKey ≤ node.key →
        ∀ child ∈ node.children, child ∈ keys ∨ p.nextKey ≤ child := by
  have h' : Balanced p [] ([] ++ keys ++ handles) := h
  rw [building] at heq
  split at heq
  · rename_i ready prepared hready
    have hprepared := preparing_spec h' List.nodup_nil (by simp) hready
    have halloc := hprepared.balanced.allocateOver hprepared.nodup hprepared.free heq
    constructor
    · intro key hkey
      rcases halloc.fresh key hkey with ⟨rfl, hlive, -⟩
      exact ⟨hprepared.evolves.next, hlive⟩
    · intro node hnode hge child hchild
      by_cases hlt : node.key < prepared.nextKey
      · rcases halloc.evolves.former node hnode hlt with ⟨old, hold, hkey, -, hchildren⟩
        exact Or.inr (hprepared.contained old hold (by omega) child (hchildren ▸ hchild)).1
      · rcases halloc.operands node hnode (by omega) with ⟨-, hchildren, -⟩
        rw [hchildren] at hchild
        rcases hprepared.source child hchild with ⟨hgiven, -⟩ | ⟨hnew, -⟩
        · exact Or.inl hgiven
        · exact Or.inr hnew
  · rename_i shortage prepared hready
    cases heq
    have hprepared := preparing_spec h' List.nodup_nil (by simp) hready
    constructor
    · simp [granted]
    · intro node hnode hge child hchild
      exact Or.inr (hprepared.contained node hnode hge child hchild).1

/-! ## What taking a node apart leaves -/

theorem keys_retain (p : Pool) (key : Nat) : (p.retain key).keys = p.keys :=
  keys_update fun _ => rfl

theorem children_keeps (heq : p.children key = (keys, q)) :
    (∀ child ∈ keys, child ∈ p.operandKeys) ∧ ∀ k ∈ p.keys, k ∈ q.keys := by
  cases heq
  constructor
  · intro child hchild
    exact mem_childrenOf hchild
  · intro k hk
    have hretained : Evolves p ((p.childrenOf key).foldl retain p) [k] :=
      Evolves.foldl (fun _ _ => Evolves.retain) _ p
    exact hretained.kept k (List.mem_singleton_self k) hk

theorem intoChildren_keeps (h : Balanced p [] (key :: handles))
    (heq : p.intoChildren key = (keys, q)) :
    (∀ child ∈ keys, child ∈ p.operandKeys) ∧
      ∀ k ∈ keys ++ handles, k ∈ p.keys → k ∈ q.keys := by
  unfold intoChildren at heq
  cases hdismantled : p.dismantle? key with
  | some result =>
      simp only [hdismantled] at heq
      subst heq
      rcases dismantle_spec h hdismantled with ⟨-, hevolves, -⟩
      unfold dismantle? at hdismantled
      cases hfound : p.node? key with
      | none => simp [hfound] at hdismantled
      | some node =>
          simp only [hfound] at hdismantled
          split_ifs at hdismantled
          cases hdismantled
          rcases node?_eq_some hfound with ⟨hnode, rfl⟩
          refine ⟨fun child hchild => mem_operandKeys.mpr ⟨node, hnode, hchild⟩, ?_⟩
          intro k hk hlive
          rw [List.mem_append] at hk
          rcases hk with hchild | hhandle
          · have hlesser := h.lesser node hnode k hchild
            rcases h.nodes_remove hnode with ⟨later, earlier, hnodes, hremoved⟩
            have hstays : k ∈ (p.remove node).keys := by
              rcases mem_keys.mp hlive with ⟨other, hother, rfl⟩
              rw [hnodes, List.mem_append, List.mem_cons] at hother
              rw [mem_keys, hremoved]
              refine ⟨other, ?_, rfl⟩
              rcases hother with hlater | rfl | hearlier
              · exact List.mem_append_left earlier hlater
              · exact absurd hlesser (Nat.lt_irrefl _)
              · exact List.mem_append_right later hearlier
            have hdetached : Evolves (p.remove node)
                (node.children.foldl Pool.detach (p.remove node)) [k] :=
              Evolves.foldl (fun _ _ => Evolves.detach) _ _
            exact hdetached.kept k (List.mem_singleton_self k) hstays
          · exact hevolves.kept k hhandle hlive
  | none =>
      simp only [hdismantled] at heq
      rcases hchildren : p.children key with ⟨given, shared⟩
      rw [hchildren] at heq
      cases heq
      rcases children_spec h hchildren with ⟨hbalanced, -, -⟩
      rcases children_keeps hchildren with ⟨hnames, hkeeps⟩
      have hshared : Balanced shared [] ([key] ++ (given ++ handles)) :=
        hbalanced.perm_handles List.perm_middle
      rcases hshared.releaseAll with ⟨-, hevolves⟩
      exact ⟨hnames, fun k hk hlive => hevolves.kept k hk (hkeeps k hlive)⟩

/-! ## Stale keys -/

theorem retain_stale (h : key ∉ p.keys) : p.retain key = p := by
  have hnodes : (p.retain key).nodes = p.nodes := by
    conv_rhs => rw [← List.map_id p.nodes]
    apply List.map_congr_left
    intro node hnode
    have hne : node.key ≠ key := fun heq => h (mem_keys.mpr ⟨node, hnode, heq⟩)
    simp [hne]
  exact congrArg (fun nodes => { p with nodes }) hnodes

theorem release_stale (h : key ∉ p.keys) : p.release key = p := by
  rw [release, releaseAll, node?_eq_none.mpr h]
  exact releaseAll.eq_1 p

/-! ## Which nodes going back leaves -/

theorem Balanced.rollback_keeps (h : Balanced p [] handles) (checkpoint : Checkpoint) :
    (∀ node ∈ (p.rollback checkpoint).nodes, node.key < checkpoint.nextKey) ∧
      ∀ k ∈ p.keys, k < checkpoint.nextKey →
        k ∈ handles ∨ k ∈ (p.rollback checkpoint).operandKeys →
          k ∈ (p.rollback checkpoint).keys := by
  let later := p.nodes.takeWhile (checkpoint.nextKey ≤ ·.key)
  let earlier := p.nodes.dropWhile (checkpoint.nextKey ≤ ·.key)
  have hnodes : p.nodes = later ++ earlier := List.takeWhile_append_dropWhile.symm
  have heq : p.rollback checkpoint =
      (later.reverse.flatMap Node.children).foldl Pool.orphan (p.dropLater later earlier) := by
    rw [Pool.rollback, List.span_eq_takeWhile_dropWhile]
    rfl
  have hearlier := lt_of_mem_dropWhile checkpoint.nextKey h.latestFirst
  have hperm : (later.flatMap Node.children ++ []).Perm
      (later.reverse.flatMap Node.children ++ []) :=
    (List.Perm.flatMap_right _ (List.reverse_perm later).symm).append_right []
  have hdropped := (h.dropLater hnodes).perm hperm (List.Perm.refl handles)
  rcases hdropped.orphanAll with ⟨hbalanced, hevolves⟩
  rw [← heq] at hbalanced hevolves
  have hnext : (p.rollback checkpoint).nextKey = (p.dropLater later earlier).nextKey :=
    nextKey_rollback p checkpoint
  constructor
  · intro node hnode
    rcases hevolves.former node hnode (hnext ▸ hbalanced.node_lt_nextKey hnode) with
      ⟨old, hold, hkey, -⟩
    exact hkey ▸ hearlier old hold
  · intro k hlive hlt hnamed
    have hthere : k ∈ (p.dropLater later earlier).keys := by
      rcases mem_keys.mp hlive with ⟨node, hnode, rfl⟩
      rw [hnodes, List.mem_append] at hnode
      rcases hnode with hnode | hnode
      · have hge : checkpoint.nextKey ≤ node.key := by
          simpa using List.mem_takeWhile_imp hnode
        omega
      · exact mem_keys.mpr ⟨node, hnode, rfl⟩
    rcases hnamed with hhandle | hoperand
    · exact hevolves.kept k hhandle hthere
    · rcases mem_operandKeys.mp hoperand with ⟨node, hnode, hchild⟩
      have hformer := hnext ▸ hbalanced.node_lt_nextKey hnode
      exact hevolves.operands node hnode hformer k hchild hthere

end Pool

namespace World

open PocketAlgebra.Pool

variable {s u v w : World}

/-! ## Nodes that something refers to -/

/-- Something refers to a key: a handle, or a node that has it among its operands. -/
def Names (w : World) (key : Nat) : Prop :=
  key ∈ w.handles ∨ key ∈ w.pool.operandKeys

/-- From a world `u` to a world `w`, no key before the bound has come to be referred to anew, and no
node with such a key has been freed that is still referred to. -/
structure Guards (bound : Nat) (u w : World) : Prop where
  named : ∀ key < bound, w.Names key → u.Names key
  alive : ∀ key < bound, key ∈ u.pool.keys → w.Names key → key ∈ w.pool.keys

theorem Guards.refl (bound : Nat) (w : World) : Guards bound w w :=
  ⟨fun _ _ hnamed => hnamed, fun _ _ hlive _ => hlive⟩

theorem Guards.trans {bound : Nat} (h : Guards bound u v) (h' : Guards bound v w) :
    Guards bound u w := by
  constructor
  · intro key hkey hnamed
    exact h.named key hkey (h'.named key hkey hnamed)
  · intro key hkey hlive hnamed
    exact h'.alive key hkey (h.alive key hkey hlive (h'.named key hkey hnamed)) hnamed

/-- A step that keeps the nodes of the handles after it guards what was there before. -/
theorem Guards.of_evolves {bound : Nat} (hbound : bound ≤ u.pool.nextKey)
    (hevolves : Evolves u.pool w.pool []) (hattaches : Attaches u.pool w.pool)
    (hhandles : ∀ key ∈ w.handles, key < u.pool.nextKey → u.Names key)
    (hkept : ∀ key ∈ w.handles, key ∈ u.pool.keys → key ∈ w.pool.keys)
    (hnew : ∀ node ∈ w.pool.nodes, u.pool.nextKey ≤ node.key →
      ∀ child ∈ node.children, child ∈ u.handles ∨ u.pool.nextKey ≤ child) :
    Guards bound u w := by
  constructor
  · rintro key hkey (hhandle | hoperand)
    · exact hhandles key hhandle (by omega)
    · rcases mem_operandKeys.mp hoperand with ⟨node, hnode, hchild⟩
      by_cases hformer : node.key < u.pool.nextKey
      · rcases hevolves.former node hnode hformer with ⟨old, hold, -, -, hchildren⟩
        exact Or.inr (mem_operandKeys.mpr ⟨old, hold, hchildren ▸ hchild⟩)
      · rcases hnew node hnode (by omega) key hchild with hgiven | hlater
        · exact Or.inl hgiven
        · omega
  · rintro key hkey hlive (hhandle | hoperand)
    · exact hkept key hhandle hlive
    · rcases mem_operandKeys.mp hoperand with ⟨node, hnode, hchild⟩
      by_cases hformer : node.key < u.pool.nextKey
      · exact hevolves.operands node hnode hformer key hchild hlive
      · exact hattaches node hnode (by omega) key hchild (Or.inl hlive)

/-- A step that makes no nodes takes no operands. -/
theorem Guards.of_nextKey_eq {bound : Nat} (howned : w.Owned)
    (hnext : w.pool.nextKey = u.pool.nextKey) (hbound : bound ≤ u.pool.nextKey)
    (hevolves : Evolves u.pool w.pool [])
    (hhandles : ∀ key ∈ w.handles, u.Names key)
    (hkept : ∀ key ∈ w.handles, key ∈ u.pool.keys → key ∈ w.pool.keys) :
    Guards bound u w := by
  refine Guards.of_evolves hbound hevolves (Attaches.of_nextKey_eq howned hnext)
    (fun key hkey _ => hhandles key hkey) hkept ?_
  intro node hnode hge
  have hlt := Balanced.node_lt_nextKey howned hnode
  omega

/-- No checkpoint of a world goes back behind the bound. -/
def Since (bound : Nat) (w : World) : Prop :=
  bound ≤ w.pool.nextKey ∧ ∀ checkpoint ∈ w.checkpoints, bound ≤ checkpoint.nextKey

theorem perform_guards {bound : Nat} {operation : Operation} (h : w.Owned)
    (hsince : w.Since bound) (hpermits : w.Permits operation) :
    Guards bound w (w.perform operation) ∧ (w.perform operation).Since bound := by
  rcases perform_owned h hpermits with ⟨howned, hevolves, hattaches⟩
  have hstill : bound ≤ (w.perform operation).pool.nextKey :=
    Nat.le_trans hsince.1 hevolves.next
  cases operation with
  | build head keys =>
      have hperm := perm_append_diff hpermits
      rcases hbuild : w.pool.building head keys with ⟨outcome, q⟩
      have hgiven := h.perm_handles hperm
      rcases building_spec hgiven hbuild with ⟨-, hkept, -⟩
      rcases building_names hgiven hbuild with ⟨hfresh, hnew⟩
      simp only [perform, hbuild] at howned hevolves hattaches hstill ⊢
      refine ⟨Guards.of_evolves hsince.1 hevolves hattaches ?_ ?_ ?_, hstill, hsince.2⟩
      · intro key hkey hlt
        rcases List.mem_append.mp hkey with hgranted | hrest
        · have hge := (hfresh key hgranted).1
          omega
        · exact Or.inl (List.diff_subset _ _ hrest)
      · intro key hkey hlive
        rcases List.mem_append.mp hkey with hgranted | hrest
        · exact (hfresh key hgranted).2
        · exact hkept.kept key hrest hlive
      · intro node hnode hge child hchild
        rcases hnew node hnode hge child hchild with hkeys | hlater
        · exact Or.inl (hpermits.subset hkeys)
        · exact Or.inr hlater
  | clone key =>
      refine ⟨Guards.of_nextKey_eq howned rfl hsince.1 hevolves ?_ ?_, hstill, hsince.2⟩
      case refine_2 =>
        intro k _ hlive
        exact (keys_retain w.pool key).symm ▸ hlive
      intro k hk
      rcases List.mem_cons.mp hk with rfl | hk
      · exact Or.inl hpermits
      · exact Or.inl hk
  | drop key =>
      have hbalanced : Balanced w.pool [] ([key] ++ w.handles.erase key) :=
        h.perm_handles (List.perm_cons_erase hpermits)
      rcases hbalanced.releaseAll with ⟨-, hreleased⟩
      refine ⟨Guards.of_nextKey_eq howned (nextKey_releaseAll _ _) hsince.1 hevolves ?_
        hreleased.kept, hstill, hsince.2⟩
      intro k hk
      exact Or.inl (List.mem_of_mem_erase hk)
  | child key index =>
      cases hchild : w.pool.child? key index with
      | none =>
          simp only [perform, hchild]
          exact ⟨Guards.refl bound w, hsince⟩
      | some result =>
          simp only [perform, hchild] at howned hevolves hstill ⊢
          unfold child? at hchild
          rcases Option.map_eq_some_iff.mp hchild with ⟨child, hget, rfl⟩
          refine ⟨Guards.of_nextKey_eq howned rfl hsince.1 hevolves ?_ ?_, hstill, hsince.2⟩
          case refine_2 =>
            intro k _ hlive
            exact (keys_retain w.pool child).symm ▸ hlive
          intro k hk
          rcases List.mem_cons.mp hk with rfl | hk
          · exact Or.inr (mem_childrenOf (List.mem_of_getElem? hget))
          · exact Or.inl hk
  | children key =>
      rcases hchildren : w.pool.children key with ⟨keys, q⟩
      rcases children_spec h hchildren with ⟨-, -, hnext⟩
      rcases children_keeps hchildren with ⟨hnames, hkeeps⟩
      simp only [perform, hchildren] at howned hevolves hstill ⊢
      refine ⟨Guards.of_nextKey_eq howned hnext hsince.1 hevolves ?_ fun k _ => hkeeps k,
        hstill, hsince.2⟩
      intro k hk
      rcases List.mem_append.mp hk with hoperand | hk
      · exact Or.inr (hnames k hoperand)
      · exact Or.inl hk
  | intoChildren key =>
      have hhandle : Balanced w.pool [] (key :: w.handles.erase key) :=
        h.perm_handles (List.perm_cons_erase hpermits)
      rcases hchildren : w.pool.intoChildren key with ⟨keys, q⟩
      rcases intoChildren_spec hhandle hchildren with ⟨-, -, hnext⟩
      rcases intoChildren_keeps hhandle hchildren with ⟨hnames, hkeeps⟩
      simp only [perform, hchildren] at howned hevolves hstill ⊢
      refine ⟨Guards.of_nextKey_eq howned hnext hsince.1 hevolves ?_ hkeeps, hstill, hsince.2⟩
      intro k hk
      rcases List.mem_append.mp hk with hoperand | hk
      · exact Or.inr (hnames k hoperand)
      · exact Or.inl (List.mem_of_mem_erase hk)
  | deepClone key =>
      rcases hcopy : w.pool.copying key with ⟨outcome, q⟩
      have hcopied := copying_spec h hcopy
      simp only [perform, hcopy] at howned hevolves hattaches hstill ⊢
      refine ⟨Guards.of_evolves hsince.1 hevolves hattaches ?_ ?_ ?_, hstill, hsince.2⟩
      · intro k hk hlt
        rcases List.mem_append.mp hk with hgranted | hk
        · have hge := (hcopied.fresh k hgranted).1
          omega
        · exact Or.inl hk
      · intro k hk hlive
        rcases List.mem_append.mp hk with hgranted | hk
        · exact (hcopied.fresh k hgranted).2.1
        · exact hcopied.evolves.kept k hk hlive
      · intro node hnode hge child hchild
        exact Or.inr (hcopied.contained node hnode hge child hchild).1
  | checkpoint =>
      refine ⟨⟨fun _ _ hnamed => hnamed, fun _ _ hlive _ => hlive⟩, hsince.1, ?_⟩
      intro checkpoint hcheckpoint
      rcases List.mem_cons.mp hcheckpoint with rfl | hearlier
      · exact hsince.1
      · exact hsince.2 checkpoint hearlier
  | rollback checkpoint =>
      have hbound := hsince.2 checkpoint hpermits
      rcases Balanced.rollback_keeps h checkpoint with ⟨-, hkeeps⟩
      refine ⟨⟨?_, ?_⟩, hstill, hsince.2⟩
      · rintro k hk (hhandle | hoperand)
        · exact Or.inl hhandle
        · rcases mem_operandKeys.mp hoperand with ⟨node, hnode, hchild⟩
          have hlt := Balanced.node_lt_nextKey howned hnode
          have hsame : (w.perform (.rollback checkpoint)).pool.nextKey = w.pool.nextKey :=
            nextKey_rollback w.pool checkpoint
          rcases hevolves.former node hnode (by omega) with ⟨old, hold, -, -, hchildren⟩
          exact Or.inr (mem_operandKeys.mpr ⟨old, hold, hchildren ▸ hchild⟩)
      · intro k hk hlive hnamed
        exact hkeeps k hlive (by omega) hnamed

theorem run_guards {bound : Nat} (h : u.Owned) (hsince : u.Since bound) (hrun : Run u w) :
    Guards bound u w ∧ w.Since bound := by
  induction hrun with
  | refl => exact ⟨Guards.refl bound u, hsince⟩
  | tail hrun hstep ih =>
      rcases hstep with ⟨operation, hpermits, rfl⟩
      have howned := (run_owned h hrun).1
      rcases perform_guards howned ih.2 hpermits with ⟨hguards, hsince'⟩
      exact ⟨ih.1.trans hguards, hsince'⟩

/-! ## Going back -/

/-- Going back to a checkpoint gives the pool as it was, where all handles of that time are still
held and all others are to nodes that have come up since; the latter are stale from then on. -/
theorem rollback_restores {capacity identity : Nat} {newer : List Nat}
    (hs : Run (start capacity identity) s) (hw : Run { s with checkpoints := [] } w)
    (hhandles : w.handles.Perm (newer ++ s.handles))
    (hnewer : ∀ key ∈ newer, s.pool.nextKey ≤ key) :
    (w.pool.rollback s.pool.checkpoint).nodes = s.pool.nodes ∧
      (w.pool.rollback s.pool.checkpoint).used = s.pool.used ∧
      ∀ key, s.pool.nextKey ≤ key →
        (w.pool.rollback s.pool.checkpoint).contains key = false ∧
        (w.pool.rollback s.pool.checkpoint).read key = .undefined ∧
        (w.pool.rollback s.pool.checkpoint).retain key = w.pool.rollback s.pool.checkpoint ∧
        (w.pool.rollback s.pool.checkpoint).release key = w.pool.rollback s.pool.checkpoint := by
  have hbefore : Balanced s.pool [] s.handles := (run_owned (start_owned capacity identity) hs).1
  have hthen : ({ s with checkpoints := [] } : World).Owned := hbefore
  have hsince : Since s.pool.nextKey { s with checkpoints := [] } := ⟨Nat.le_refl _, by simp⟩
  rcases run_owned hthen hw with ⟨howned, hevolves⟩
  have hguards := (run_guards hthen hsince hw).1
  rcases Balanced.rollback howned s.pool.checkpoint with ⟨hrestored, hevolves'⟩
  rcases Balanced.rollback_keeps howned s.pool.checkpoint with ⟨hformer, hkeeps⟩
  have hstale : ∀ key, s.pool.nextKey ≤ key → key ∉ (w.pool.rollback s.pool.checkpoint).keys := by
    intro key hkey hlive
    rcases mem_keys.mp hlive with ⟨node, hnode, rfl⟩
    exact absurd (hformer node hnode) (Nat.not_lt.mpr hkey)
  have hback : Evolves s.pool (w.pool.rollback s.pool.checkpoint) s.handles := by
    rcases hevolves.trans hevolves' with ⟨hnext, hsame, hoperands, -⟩
    refine ⟨hnext, hsame, hoperands, ?_⟩
    intro key hkey hlive
    have hlt := hbefore.handle_lt_nextKey hkey
    have hheld : key ∈ w.handles := hhandles.mem_iff.mpr (List.mem_append_right newer hkey)
    exact hkeeps key (hguards.alive key hlt hlive (Or.inl hheld)) hlt (Or.inl hheld)
  have hcontained : SelfContained s.pool (w.pool.rollback s.pool.checkpoint) := by
    intro node hnode hge
    exact absurd (hformer node hnode) (Nat.not_lt.mpr hge)
  rcases hbefore.grown (hrestored.perm_handles hhandles) hback hcontained hnewer with
    ⟨later, hnodes, hused, hlater⟩
  have hnone : later = [] := by
    apply List.eq_nil_iff_forall_not_mem.mpr
    intro node hnode
    have hmem : node ∈ (w.pool.rollback s.pool.checkpoint).nodes := by
      rw [hnodes]
      exact List.mem_append_left _ hnode
    exact absurd (hformer node hmem) (Nat.not_lt.mpr (hlater node hnode))
  subst hnone
  refine ⟨hnodes, by simpa using hused, ?_⟩
  intro key hkey
  have hgone := hstale key hkey
  refine ⟨?_, readWithin_stale hgone _, retain_stale hgone, release_stale hgone⟩
  rw [← Bool.not_eq_true, contains_iff]
  exact hgone

/-- A symbol with a handle to it. -/
def single : World :=
  (start 1000 0).perform (.build (.symbol "x") [])

/-- The symbol has become an operand, of which there is a copy as well. -/
def attached : World :=
  (({ single with checkpoints := [] }.perform (.clone 0)).perform
    (.build (.apply .opposite []) [0])).perform (.deepClone 1)

theorem single_run : Run (start 1000 0) single :=
  Relation.ReflTransGen.single ⟨.build (.symbol "x") [], List.nil_subperm, rfl⟩

theorem attached_run : Run { single with checkpoints := [] } attached := by
  unfold Run
  apply Relation.ReflTransGen.tail
  · apply Relation.ReflTransGen.tail
    · apply Relation.ReflTransGen.single
      exact ⟨.clone 0, show 0 ∈ single.handles by decide +kernel, rfl⟩
    · refine ⟨.build (.apply .opposite []) [0], ?_, rfl⟩
      rw [Permits, List.subperm_ext_iff]
      decide +kernel
  · refine ⟨.deepClone 1, ?_, rfl⟩
    show 1 ∈ _
    decide +kernel

theorem rollback_restores_attached :
    attached.pool.hasParent 0 = true ∧ attached.handles = [3, 1, 0] ∧
      (attached.pool.rollback single.pool.checkpoint).nodes = single.pool.nodes ∧
      (attached.pool.rollback single.pool.checkpoint).used = single.pool.used ∧
      (attached.pool.rollback single.pool.checkpoint).contains 3 = false := by
  have hhandles : attached.handles = [3, 1] ++ single.handles := by decide +kernel
  have hrestored := rollback_restores single_run attached_run
    (List.Perm.of_eq hhandles) (by decide +kernel)
  have hlater : single.pool.nextKey ≤ 3 := by decide +kernel
  exact ⟨by decide +kernel, hhandles, hrestored.1, hrestored.2.1, (hrestored.2.2 3 hlater).1⟩

end World

end PocketAlgebra
