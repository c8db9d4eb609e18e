import PocketAlgebra.Pool.Reducing
import PocketAlgebra.Proofs.Pool.Undo

/-!
# Work that does what is permitted

Work within a pool that uses its own handles, in whatever way programs may use them, and copies what
others hold, never gets at what was there before. So a reduction does not either, whatever its rules
do with copies, with operands and with nodes that are shared.
-/

namespace PocketAlgebra

open Pool

namespace World

variable {p q : Pool} {handles : List Nat} {u w : World} {key : Nat}

/-- Operations that do not go back, and use no handles but those that are held. A copy may also be
one of what others hold. -/
def Admits (w : World) : Operation → Prop
  | .deepClone _ => True
  | .rollback _ => False
  | operation => w.Permits operation

/-- One such operation leads from a world to another one. -/
def Onward (w w' : World) : Prop :=
  ∃ operation, w.Admits operation ∧ w' = w.perform operation

/-- Any number of such operations lead from a world to another one. -/
def Advances : World → World → Prop :=
  Relation.ReflTransGen Onward

theorem Advances.one (operation : Operation) (hadmits : w.Admits operation) :
    Advances w (w.perform operation) :=
  Relation.ReflTransGen.single ⟨operation, hadmits, rfl⟩

/-! ## What is kept apart -/

/-- Beside the handles of others, a world has handles to what has been made since its pool was `p`.
-/
structure Apart (p : Pool) (handles : List Nat) (w : World) : Prop where
  balanced : Balanced w.pool [] (w.handles ++ handles)
  evolves : Evolves p w.pool handles
  contained : SelfContained p w.pool
  fresh : ∀ key ∈ w.handles, p.nextKey ≤ key ∧ key ∈ w.pool.keys

theorem Apart.of_copied {made : List Nat} (h : Copied p q handles made) :
    Apart p handles { pool := q, handles := made } := by
  constructor
  · exact h.balanced
  · exact h.evolves
  · exact h.contained
  · intro key hkey
    exact ⟨(h.fresh key hkey).1, (h.fresh key hkey).2.1⟩

namespace Apart

/-- The operands of what has been made have been made as well. -/
theorem operand (h : Apart p handles w) (hkey : key ∈ w.handles) {child : Nat}
    (hchild : child ∈ w.pool.childrenOf key) : p.nextKey ≤ child ∧ child ∈ w.pool.keys := by
  unfold childrenOf at hchild
  cases hfound : w.pool.node? key with
  | none => simp [hfound] at hchild
  | some node =>
      rcases node?_eq_some hfound with ⟨hnode, rfl⟩
      simp only [hfound, Option.map_some, Option.getD_some] at hchild
      exact h.contained node hnode (h.fresh node.key hkey).1 child hchild

/-- A step whose new nodes and handles are to what has been made. -/
theorem step {mine : List Nat} (h : Apart p handles w) (hbalanced : Balanced q [] (mine ++ handles))
    (hevolves : Evolves w.pool q handles)
    (hnew : ∀ node ∈ q.nodes, w.pool.nextKey ≤ node.key →
      ∀ child ∈ node.children, p.nextKey ≤ child ∧ child ∈ q.keys)
    (hmine : ∀ key ∈ mine, p.nextKey ≤ key ∧ key ∈ q.keys) :
    Apart p handles { w with pool := q, handles := mine } := by
  constructor
  · exact hbalanced
  · exact h.evolves.trans hevolves
  · intro node hnode hge child hchild
    by_cases hformer : node.key < w.pool.nextKey
    · rcases hevolves.former node hnode hformer with ⟨old, hold, hkey, -, hchildren⟩
      rcases h.contained old hold (by omega) child (hchildren ▸ hchild) with ⟨hfresh, hlive⟩
      exact ⟨hfresh, hevolves.operands node hnode hformer child hchild hlive⟩
    · exact hnew node hnode (by omega) child hchild
  · exact hmine

/-- A step that makes no nodes. -/
theorem step_of_nextKey_eq {mine : List Nat} (h : Apart p handles w)
    (hbalanced : Balanced q [] (mine ++ handles)) (hevolves : Evolves w.pool q handles)
    (hnext : q.nextKey = w.pool.nextKey)
    (hmine : ∀ key ∈ mine, p.nextKey ≤ key ∧ key ∈ q.keys) :
    Apart p handles { w with pool := q, handles := mine } := by
  apply h.step hbalanced hevolves _ hmine
  intro node hnode hge
  have hlt := hbalanced.node_lt_nextKey hnode
  omega

theorem build {head : Expr} {keys : List Nat} (h : Apart p handles w)
    (hkeys : List.Subperm keys w.handles) : Apart p handles (w.perform (.build head keys)) := by
  have hperm : (w.handles ++ handles).Perm (keys ++ (w.handles.diff keys ++ handles)) := by
    rw [← List.append_assoc]
    exact (perm_append_diff hkeys).append_right handles
  have hgiven := h.balanced.perm_handles hperm
  rcases hbuild : w.pool.building head keys with ⟨outcome, q⟩
  rcases building_spec hgiven hbuild with ⟨hbalanced, hevolves, hattaches⟩
  rcases building_names hgiven hbuild with ⟨hgranted, hnew⟩
  simp only [perform, hbuild]
  apply h.step
  · rw [List.append_assoc]
    exact hbalanced
  · exact hevolves.mono fun k hk => List.mem_append_right _ hk
  · intro node hnode hge child hchild
    rcases hnew node hnode hge child hchild with hkey | hlater
    · rcases h.fresh child (hkeys.subset hkey) with ⟨hfresh, hlive⟩
      exact ⟨hfresh, hattaches node hnode hge child hchild (Or.inl hlive)⟩
    · exact ⟨Nat.le_trans h.evolves.next hlater,
        hattaches node hnode hge child hchild (Or.inr hlater)⟩
  · intro key hkey
    rcases List.mem_append.mp hkey with hmade | hrest
    · rcases hgranted key hmade with ⟨hlater, hlive⟩
      exact ⟨Nat.le_trans h.evolves.next hlater, hlive⟩
    · rcases h.fresh key (List.diff_subset _ _ hrest) with ⟨hfresh, hlive⟩
      exact ⟨hfresh, hevolves.kept key (List.mem_append_left handles hrest) hlive⟩

theorem clone (h : Apart p handles w) (hkey : key ∈ w.handles) :
    Apart p handles (w.perform (.clone key)) := by
  have hbalanced := h.balanced.retain
    (h.balanced.handle_lt_nextKey (List.mem_append_left handles hkey))
  apply h.step_of_nextKey_eq hbalanced Evolves.retain rfl
  intro k hk
  rw [keys_retain]
  rcases List.mem_cons.mp hk with rfl | hk
  · exact h.fresh k hkey
  · exact h.fresh k hk

theorem drop (h : Apart p handles w) (hkey : key ∈ w.handles) :
    Apart p handles (w.perform (.drop key)) := by
  have hbalanced : Balanced w.pool [] ([key] ++ (w.handles.erase key ++ handles)) :=
    h.balanced.perm_handles ((List.perm_cons_erase hkey).append_right handles)
  rcases hbalanced.releaseAll with ⟨hreleased, hevolves⟩
  apply h.step_of_nextKey_eq hreleased _ (nextKey_releaseAll _ _)
  · intro k hk
    rcases h.fresh k (List.mem_of_mem_erase hk) with ⟨hfresh, hlive⟩
    exact ⟨hfresh, hevolves.kept k (List.mem_append_left handles hk) hlive⟩
  · exact hevolves.mono fun k hk => List.mem_append_right _ hk

theorem child {index : Nat} (h : Apart p handles w) (hkey : key ∈ w.handles) :
    Apart p handles (w.perform (.child key index)) := by
  cases hchild : w.pool.child? key index with
  | none =>
      simp only [perform, hchild]
      exact h
  | some result =>
      simp only [perform, hchild]
      unfold child? at hchild
      rcases Option.map_eq_some_iff.mp hchild with ⟨child, hget, rfl⟩
      have hmem : child ∈ w.pool.childrenOf key := List.mem_of_getElem? hget
      have hbalanced := h.balanced.retain (h.balanced.operand_lt_nextKey (mem_childrenOf hmem))
      apply h.step_of_nextKey_eq hbalanced Evolves.retain rfl
      intro k hk
      rw [keys_retain]
      rcases List.mem_cons.mp hk with rfl | hk
      · exact h.operand hkey hmem
      · exact h.fresh k hk

theorem children (h : Apart p handles w) (hkey : key ∈ w.handles) :
    Apart p handles (w.perform (.children key)) := by
  rcases hchildren : w.pool.children key with ⟨keys, q⟩
  have hkeys : w.pool.childrenOf key = keys := congrArg Prod.fst hchildren
  rcases children_spec h.balanced hchildren with ⟨hbalanced, hevolves, hnext⟩
  have hlive := (children_keeps hchildren).2
  simp only [perform, hchildren]
  apply h.step_of_nextKey_eq _ _ hnext
  · intro k hk
    rcases List.mem_append.mp hk with hoperand | hk
    · rcases h.operand hkey (hkeys ▸ hoperand) with ⟨hfresh, hthere⟩
      exact ⟨hfresh, hlive k hthere⟩
    · rcases h.fresh k hk with ⟨hfresh, hthere⟩
      exact ⟨hfresh, hlive k hthere⟩
  · rw [List.append_assoc]
    exact hbalanced
  · exact hevolves.mono fun k hk => List.mem_append_right _ hk

theorem intoChildren_fst (p : Pool) (key : Nat) :
    (p.intoChildren key).1 = p.childrenOf key := by
  unfold intoChildren
  cases hdismantled : p.dismantle? key with
  | none => rfl
  | some result =>
      unfold dismantle? at hdismantled
      cases hfound : p.node? key with
      | none => simp [hfound] at hdismantled
      | some node =>
          simp only [hfound] at hdismantled
          split_ifs at hdismantled
          cases hdismantled
          simp [childrenOf, hfound]

theorem intoChildren (h : Apart p handles w) (hkey : key ∈ w.handles) :
    Apart p handles (w.perform (.intoChildren key)) := by
  have hhandle : Balanced w.pool [] (key :: (w.handles.erase key ++ handles)) :=
    h.balanced.perm_handles ((List.perm_cons_erase hkey).append_right handles)
  rcases hchildren : w.pool.intoChildren key with ⟨keys, q⟩
  have hkeys : w.pool.childrenOf key = keys :=
    (intoChildren_fst w.pool key).symm.trans (congrArg Prod.fst hchildren)
  rcases intoChildren_spec hhandle hchildren with ⟨hbalanced, hevolves, hnext⟩
  have hlive := (intoChildren_keeps hhandle hchildren).2
  simp only [perform, hchildren]
  apply h.step_of_nextKey_eq _ _ hnext
  · intro k hk
    have hthere : p.nextKey ≤ k ∧ k ∈ w.pool.keys := by
      rcases List.mem_append.mp hk with hoperand | hrest
      · exact h.operand hkey (hkeys ▸ hoperand)
      · exact h.fresh k (List.mem_of_mem_erase hrest)
    refine ⟨hthere.1, hlive k ?_ hthere.2⟩
    rw [← List.append_assoc]
    exact List.mem_append_left handles hk
  · rw [List.append_assoc]
    exact hbalanced
  · exact hevolves.mono fun k hk => List.mem_append_right _ hk

theorem deepClone (h : Apart p handles w) : Apart p handles (w.perform (.deepClone key)) := by
  rcases hcopy : w.pool.copying key with ⟨outcome, q⟩
  have hcopied := copying_spec h.balanced hcopy
  simp only [perform, hcopy]
  apply h.step
  · rw [List.append_assoc]
    exact hcopied.balanced
  · exact hcopied.evolves.mono fun k hk => List.mem_append_right _ hk
  · intro node hnode hge child hchild
    rcases hcopied.contained node hnode hge child hchild with ⟨hlater, hlive⟩
    exact ⟨Nat.le_trans h.evolves.next hlater, hlive⟩
  · intro k hk
    rcases List.mem_append.mp hk with hmade | hk
    · rcases hcopied.fresh k hmade with ⟨hlater, hlive, -⟩
      exact ⟨Nat.le_trans h.evolves.next hlater, hlive⟩
    · rcases h.fresh k hk with ⟨hfresh, hlive⟩
      exact ⟨hfresh, hcopied.evolves.kept k (List.mem_append_left handles hk) hlive⟩

theorem perform {operation : Operation} (h : Apart p handles w) (hadmits : w.Admits operation) :
    Apart p handles (w.perform operation) := by
  cases operation with
  | build head keys => exact h.build hadmits
  | clone key => exact h.clone hadmits
  | drop key => exact h.drop hadmits
  | child key index => exact h.child hadmits
  | children key => exact h.children hadmits
  | intoChildren key => exact h.intoChildren hadmits
  | deepClone key => exact h.deepClone
  | checkpoint => exact ⟨h.balanced, h.evolves, h.contained, h.fresh⟩
  | rollback checkpoint => exact hadmits.elim

/-- Whatever is done with the handles, what was there before is kept apart. -/
theorem advances (h : Apart p handles u) (hadvances : Advances u w) : Apart p handles w := by
  induction hadvances with
  | refl => exact h
  | tail _ hstep ih =>
      rcases hstep with ⟨operation, hadmits, rfl⟩
      exact ih.perform hadmits

/-- When the handles are dropped, nothing is left of what has been made. -/
theorem abandoned (h : Apart p handles w) : Copied p (w.pool.releaseAll w.handles) handles [] := by
  rcases h.balanced.releaseAll with ⟨hbalanced, hevolves⟩
  have hcontained : SelfContained w.pool (w.pool.releaseAll w.handles) :=
    SelfContained.of_nextKey_eq hbalanced (nextKey_releaseAll _ _)
  constructor
  · exact hbalanced
  · exact h.evolves.trans hevolves
  · exact h.contained.trans hcontained h.evolves hevolves
  · exact List.nodup_nil
  · simp

end Apart

end World

/-! ## Careful work -/

namespace Working

variable {σ ε α β γ : Type} {given kept : List Nat} {made : β → List Nat} {next : γ → List Nat}
  {work : Working σ ε β} {f : β → Working σ ε γ}

/-- Work that does with its handles what is permitted, and takes over those that are given. Where it
comes to an end, the handles to its result have taken their place. -/
def Careful (work : Working σ ε β) (given : List Nat) (made : β → List Nat) : Prop :=
  ∀ s w kept, w.handles.Perm (given ++ kept) →
    World.Advances w (work s w).2 ∧
      ∀ b t, (work s w).1 = .ok (b, t) → (work s w).2.handles.Perm (made b ++ kept)

namespace Careful

theorem perm {given' : List Nat} (h : Careful work given' made) (hperm : given.Perm given') :
    Careful work given made := by
  intro s w kept hhandles
  exact h s w kept (hhandles.trans (hperm.append_right kept))

/-- What else is held stays held. -/
theorem beside (h : Careful work given made) (rest : List Nat) :
    Careful work (given ++ rest) fun b => made b ++ rest := by
  intro s w kept hhandles
  rw [List.append_assoc] at hhandles
  rcases h s w (rest ++ kept) hhandles with ⟨hadvances, hmade⟩
  refine ⟨hadvances, fun b t hok => ?_⟩
  rw [List.append_assoc]
  exact hmade b t hok

theorem pure (b : β) (h : given.Perm (made b)) :
    Careful (Pure.pure b : Working σ ε β) given made := by
  intro s w kept hhandles
  refine ⟨Relation.ReflTransGen.refl, ?_⟩
  rintro _ _ ⟨⟩
  exact hhandles.trans (h.append_right kept)

/-- One step after the other. -/
theorem bind (h : Careful work given made) (hnext : ∀ b, Careful (f b) (made b) next) :
    Careful (work >>= f) given next := by
  intro s w kept hhandles
  rcases h s w kept hhandles with ⟨hadvances, hmade⟩
  rcases hwork : work s w with ⟨e | ⟨b, t⟩, w'⟩
  · rw [hwork] at hadvances
    rw [bind_error hwork]
    exact ⟨hadvances, by simp⟩
  · rw [hwork] at hadvances hmade
    rw [bind_ok hwork]
    rcases hnext b t w' kept (hmade b t rfl) with ⟨hadvances', hmade'⟩
    exact ⟨hadvances.trans hadvances', hmade'⟩

theorem lift (m : StateT σ (Except ε) β) :
    Careful (liftM m : Working σ ε β) [] fun _ => [] :=
  fun _ _ _ hhandles => ⟨Relation.ReflTransGen.refl, fun _ _ _ => hhandles⟩

theorem look (key : Nat) : Careful (Working.look key : Working σ ε Expr) [] fun _ => [] :=
  fun _ _ _ hhandles => ⟨Relation.ReflTransGen.refl, fun _ _ _ => hhandles⟩

theorem lookAll (keys : List Nat) :
    Careful (Working.lookAll keys : Working σ ε (List Expr)) [] fun _ => [] :=
  fun _ _ _ hhandles => ⟨Relation.ReflTransGen.refl, fun _ _ _ => hhandles⟩

theorem drop (key : Nat) : Careful (Working.drop key : Working σ ε Unit) [key] fun _ => [] := by
  intro s w kept hhandles
  have hmem : key ∈ w.handles := hhandles.mem_iff.mpr List.mem_cons_self
  refine ⟨World.Advances.one (.drop key) hmem, fun _ _ _ => ?_⟩
  have herased := hhandles.erase key
  rwa [List.singleton_append, List.erase_cons_head] at herased

theorem intoChildren (key : Nat) :
    Careful (Working.intoChildren key : Working σ ε (List Nat)) [key] id := by
  intro s w kept hhandles
  have hmem : key ∈ w.handles := hhandles.mem_iff.mpr List.mem_cons_self
  refine ⟨World.Advances.one (.intoChildren key) hmem, ?_⟩
  rintro _ _ ⟨⟩
  have herased := hhandles.erase key
  rw [List.singleton_append, List.erase_cons_head] at herased
  exact herased.append_left _

theorem make [Refusing σ ε] (head : Expr) (keys : List Nat) :
    Careful (Working.make head keys : Working σ ε Nat) keys fun key => [key] := by
  intro s w kept hhandles
  refine ⟨World.Advances.one (.build head keys) (subperm_of_perm_append hhandles), ?_⟩
  intro key t hok
  rcases hbuild : w.pool.building head keys with ⟨shortage | result, q⟩
  · simp only [Working.make, hbuild, Working.settle] at hok
    cases hok
  · simp only [Working.make, hbuild, Working.settle] at hok
    cases hok
    simp only [Working.make, World.perform, hbuild]
    exact (diff_perm hhandles).cons key

theorem copy [Refusing σ ε] (key : Nat) :
    Careful (Working.copy key : Working σ ε Nat) [] fun made => [made] := by
  intro s w kept hhandles
  refine ⟨World.Advances.one (.deepClone key) trivial, ?_⟩
  intro made t hok
  rcases hcopy : w.pool.copying key with ⟨shortage | result, q⟩
  · simp only [Working.copy, hcopy, Working.settle] at hok
    cases hok
  · simp only [Working.copy, hcopy, Working.settle] at hok
    cases hok
    simp only [Working.copy, World.perform, hcopy]
    exact hhandles.cons made

theorem mapM {g : Nat → Working σ ε Nat}
    (h : ∀ key, Careful (g key) [key] fun made => [made]) (keys : List Nat) :
    Careful (keys.mapM g) keys id := by
  induction keys with
  | nil =>
      rw [List.mapM_nil]
      exact pure [] (List.Perm.refl [])
  | cons key keys ih =>
      rw [List.mapM_cons]
      apply ((h key).beside keys).bind
      intro made
      apply ((ih.beside [made]).perm List.perm_append_comm).bind
      intro others
      exact pure (made :: others) List.perm_append_comm

mutual

theorem plant [Refusing σ ε] (x : Expr) :
    Careful (Working.plant x : Working σ ε Nat) [] fun key => [key] := by
  cases x with
  | apply f xs =>
      rw [Working.plant]
      apply (plantAll xs).bind
      intro keys
      exact make (.apply f []) keys
  | rational => exact make _ []
  | decimal => exact make _ []
  | infinity => exact make _ []
  | constant => exact make _ []
  | symbol => exact make _ []

theorem plantAll [Refusing σ ε] (xs : List Expr) :
    Careful (Working.plantAll xs : Working σ ε (List Nat)) [] id := by
  cases xs with
  | nil =>
      rw [Working.plantAll]
      exact pure [] (List.Perm.refl [])
  | cons x xs =>
      rw [Working.plantAll]
      apply (plant x).bind
      intro key
      apply (((plantAll xs).beside [key]).perm List.perm_append_comm).bind
      intro keys
      exact pure (key :: keys) List.perm_append_comm

end

end Careful

end Working

/-! ## Reductions by careful rules -/

namespace Reduction.Pooled

open Working

end Reduction.Pooled

end PocketAlgebra
