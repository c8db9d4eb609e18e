import Mathlib.Data.List.Forall2
import PocketAlgebra.Pool.Handle
import PocketAlgebra.Proofs.Codec.Tree
import PocketAlgebra.Proofs.Pool.Building
import PocketAlgebra.Proofs.Text.RoundTrip

/-!
# Expressions that are put into a pool

Where there is room for an expression, it can be put into a pool, is read back from its key, and
leaves what other handles stand for as it was.

What has been written as bytes is read back into any pool with room for it, and so is what has been
written as text, up to notation. The handles that are held before stand for what they stood for.
-/

namespace PocketAlgebra
namespace Pool

variable {p q r : Pool} {key : Nat} {head x : Expr} {handles keys made kept : List Nat}

/-! ## Use of bytes -/

/-- A pool `q` has come from a pool `p` and has used up so many bytes at most. -/
structure Spends (p q : Pool) (charge : Nat) : Prop where
  capacity : q.capacity = p.capacity
  used : q.used ≤ p.used + charge

namespace Spends

theorem trans {charge charge' : Nat} (h : Spends p q charge) (h' : Spends q r charge') :
    Spends p r (charge + charge') := by
  constructor
  · rw [h'.capacity, h.capacity]
  · have hfirst := h.used
    have hsecond := h'.used
    omega

theorem free {charge room : Nat} (h : Spends p q charge) (hroom : charge + room ≤ p.free) :
    room ≤ q.free := by
  have hcapacity := h.capacity
  have hused := h.used
  unfold Pool.free at hroom ⊢
  omega

theorem foldl {step : Pool → Nat → Pool} (hstep : ∀ p key, Spends p (step p key) 0)
    (keys : List Nat) (p : Pool) : Spends p (keys.foldl step p) 0 := by
  induction keys generalizing p with
  | nil => exact ⟨rfl, Nat.le_refl _⟩
  | cons key keys ih => exact (hstep p key).trans (ih (step p key))

theorem releaseAll (p : Pool) (keys : List Nat) : Spends p (p.releaseAll keys) 0 := by
  induction p, keys using releaseAll.induct with
  | case1 p =>
      rw [Pool.releaseAll]
      exact ⟨rfl, Nat.le_refl _⟩
  | case2 p key rest hstale ih =>
      rw [Pool.releaseAll, hstale]
      exact ih
  | case3 p key rest node hfound hmany ih =>
      have hdecrement : Spends p (p.decrement key) 0 := ⟨rfl, Nat.le_refl _⟩
      rw [Pool.releaseAll, hfound]
      simp only [hmany, if_true]
      exact hdecrement.trans ih
  | case4 p key rest node hfound hlast ih =>
      have hremove : Spends p (p.remove node) 0 := ⟨rfl, Nat.sub_le _ _⟩
      have hstep : ∀ (p : Pool) key, Spends p (p.detach key) 0 := fun _ _ => ⟨rfl, Nat.le_refl _⟩
      have hdetach := foldl hstep node.children (p.remove node)
      rw [Pool.releaseAll, hfound]
      simp only [hlast, if_false]
      exact (hremove.trans hdetach).trans ih

end Spends

/-- A node for which there is room can be allocated. -/
theorem allocateOver_succeeds (head : Expr)
    (hroom : Node.chargeOf head keys.length ≤ p.free) :
    ∃ q, p.allocateOver head keys = (.ok p.nextKey, q) ∧
      Spends p q (Node.chargeOf head keys.length) := by
  have hfits : ¬ p.free < Node.chargeOf head keys.length := Nat.not_lt.mpr hroom
  have hstep : ∀ (p : Pool) key, Spends p (p.attach key) 0 := fun _ _ => ⟨rfl, Nat.le_refl _⟩
  have hattached := Spends.foldl hstep keys p
  have hpushed : Spends (keys.foldl attach p) ((keys.foldl attach p).push head keys)
      (Node.chargeOf head keys.length) := ⟨rfl, Nat.le_refl _⟩
  refine ⟨((keys.foldl attach p).push head keys).releaseAll keys, ?_, ?_⟩
  · rw [allocateOver, allocate_eq, if_neg hfits]
  · have hreleased := (hattached.trans hpushed).trans (Spends.releaseAll _ keys)
    rw [Nat.zero_add, Nat.add_zero] at hreleased
    exact hreleased

/-! ## Reading on -/

theorem readWithin_stale (h : key ∉ p.keys) (levels : Nat) :
    p.readWithin levels key = .undefined := by
  cases levels with
  | zero => rfl
  | succ levels =>
      rw [readWithin, node?_eq_none.mpr h]

/-- A node that was there before, and is there still, stands for what it stood for. -/
theorem readWithin_evolves {loose loose' handles' : List Nat} (hp : Balanced p loose handles)
    (hq : Balanced q loose' handles') (h : Evolves p q kept) (levels : Nat)
    (hlive : key ∈ q.keys) (hformer : key < p.nextKey) :
    q.readWithin levels key = p.readWithin levels key := by
  induction levels generalizing key with
  | zero => rfl
  | succ levels ih =>
      rcases mem_keys.mp hlive with ⟨node, hnode, rfl⟩
      rcases h.former node hnode hformer with ⟨old, hold, hkey, hhead, hchildren⟩
      have hfound := hp.node?_eq hold
      rw [hkey] at hfound
      rw [readWithin, readWithin, hq.node?_eq hnode, hfound]
      simp only [hhead, hchildren]
      congr 1
      apply List.map_congr_left
      intro child hchild
      have hlesser := hp.lesser old hold child (hchildren ▸ hchild)
      by_cases hthere : child ∈ p.keys
      · exact ih (h.operands node hnode hformer child hchild hthere) (by omega)
      · have hgone : child ∉ q.keys := by
          intro hback
          rcases mem_keys.mp hback with ⟨later, hlater, rfl⟩
          rcases h.former later hlater (by omega) with ⟨earlier, hearlier, hsame, -⟩
          exact hthere (mem_keys.mpr ⟨earlier, hearlier, hsame⟩)
        rw [readWithin_stale hgone, readWithin_stale hthere]

/-- What a handle stands for is not changed by what is done with others. -/
theorem read_evolves {loose loose' handles' : List Nat} (hp : Balanced p loose handles)
    (hq : Balanced q loose' handles') (h : Evolves p q handles) (hkey : key ∈ handles) :
    q.read key = p.read key := by
  have hformer := hp.handle_lt_nextKey hkey
  by_cases hlive : key ∈ q.keys
  · exact readWithin_evolves hp hq h _ hlive hformer
  · have hstale : key ∉ p.keys := fun hthere => hlive (h.kept key hkey hthere)
    rw [read, read, readWithin_stale hlive, readWithin_stale hstale]

/-- The key of a node that stands for an expression, of which all nodes are there. -/
structure Shows (p : Pool) (key : Nat) (x : Expr) : Prop where
  live : key ∈ p.keys
  read : ∀ levels, key < levels → p.readWithin levels key = x

theorem Shows.evolves {loose loose' handles' : List Nat} (h : Shows p key x)
    (hp : Balanced p loose handles) (hq : Balanced q loose' handles') (hpq : Evolves p q kept)
    (hlive : key ∈ q.keys) : Shows q key x := by
  refine ⟨hlive, fun levels hlevels => ?_⟩
  have hformer : key < p.nextKey := hp.issued key (by simp [h.live])
  rw [readWithin_evolves hp hq hpq levels hlive hformer]
  exact h.read levels hlevels

theorem Shows.read_eq (h : Shows p key x) : p.read key = x :=
  h.read (key + 1) (Nat.lt_succ_self key)

/-- A node over operands stands for the expression that is put together from them. -/
theorem Allocated.shows {xs : List Expr} {key : Nat} (h : Allocated p q head handles keys [key])
    (hp : Balanced p [] (keys ++ handles)) (hkeys : List.Forall₂ (Shows p) keys xs) :
    Shows q key (head.withOperands xs) := by
  rcases h.fresh key (by simp) with ⟨rfl, hlive, -⟩
  refine ⟨hlive, ?_⟩
  rintro (_ | levels) hlevels
  · omega
  · rcases mem_keys.mp hlive with ⟨node, hnode, hkey⟩
    rcases h.operands node hnode (Nat.le_of_eq hkey.symm) with ⟨hhead, hchildren, hkept⟩
    have hfound := h.balanced.node?_eq hnode
    rw [hkey] at hfound
    rw [readWithin, hfound]
    simp only [hhead, hchildren]
    congr 1
    have hshown : List.Forall₂ (fun child y => q.readWithin levels child = y) keys xs := by
      rw [List.forall₂_iff_get] at hkeys ⊢
      refine ⟨hkeys.1, fun index hindex hindex' => ?_⟩
      have hchild := hkeys.2 index hindex hindex'
      have hmem : keys.get ⟨index, hindex⟩ ∈ keys := List.get_mem keys ⟨index, hindex⟩
      have hissued := hp.handle_lt_nextKey (List.mem_append_left handles hmem)
      have hthere := hkept _ hmem hchild.live
      exact (hchild.evolves hp h.balanced h.evolves hthere).read levels (by omega)
    rw [← List.forall₂_eq_eq_eq, List.forall₂_map_left_iff]
    exact hshown

/-! ## Inserting -/

/-- An expression has been put into a pool under new keys. -/
structure Inserted (p q : Pool) (handles keys : List Nat) (xs : List Expr) : Prop where
  copied : Copied p q handles keys
  shows : List.Forall₂ (Shows q) keys xs
  spends : Spends p q (Expr.chargeAll xs)

theorem Inserted.nil (h : Balanced p [] handles) : Inserted p p handles [] [] :=
  ⟨Copied.none h, .nil, ⟨rfl, Nat.le_refl _⟩⟩

theorem Inserted.cons {xs : List Expr} (h : Inserted p q handles [key] [x])
    (h' : Inserted q r (key :: handles) keys xs) :
    Inserted p r handles (key :: keys) (x :: xs) := by
  rcases List.forall₂_cons.mp h.shows with ⟨hshows, -⟩
  have hlive := h'.copied.evolves.kept key List.mem_cons_self hshows.live
  have hlater := hshows.evolves h.copied.balanced h'.copied.balanced h'.copied.evolves hlive
  exact ⟨h.copied.append h'.copied, .cons hlater h'.shows, h.spends.trans h'.spends⟩

/-- The node over operands that have been put into the pool. -/
theorem Inserted.allocateOver {xs : List Expr} (h : Inserted p q handles keys xs)
    (head : Expr) (hx : head.withOperands xs = x) (hcharge : x.charge = Expr.chargeAll xs +
      Node.chargeOf head keys.length) (hroom : x.charge ≤ p.free) :
    ∃ key r, q.allocateOver head keys = (.ok key, r) ∧ Inserted p r handles [key] [x] := by
  have hleft : Node.chargeOf head keys.length ≤ q.free := h.spends.free (by omega)
  rcases allocateOver_succeeds head hleft with ⟨r, hr, hspends⟩
  have hcopied := h.copied.allocateOver hr
  have hallocated := h.copied.balanced.allocateOver h.copied.nodup
    (fun key hkey => (h.copied.fresh key hkey).2.2) hr
  have hshows := hallocated.shows h.copied.balanced h.shows
  rw [hx] at hshows
  have htotal := h.spends.trans hspends
  rw [← hcharge] at htotal
  exact ⟨_, r, hr, hcopied, .cons hshows .nil, htotal⟩

/-- Allocating over operands and then dropping the handles to them is one step. -/
theorem allocate_releaseAll (h : p.allocateOver head keys = (.ok key, q)) :
    ∃ r, p.allocate head keys = .ok (key, r) ∧ r.releaseAll keys = q := by
  unfold allocateOver at h
  split at h
  · rename_i made r hallocate
    cases h
    exact ⟨r, hallocate, rfl⟩
  · cases h

theorem insert_leaf (h : Balanced p [] handles) (hleaf : p.insert x = p.allocate x [])
    (hx : x.withOperands [] = x) (hcharge : x.charge = Node.chargeOf x 0)
    (hroom : x.charge ≤ p.free) :
    ∃ key q, p.insert x = .ok (key, q) ∧ Inserted p q handles [key] [x] := by
  rw [← Nat.zero_add (Node.chargeOf x 0)] at hcharge
  rcases (Inserted.nil h).allocateOver x hx hcharge hroom with ⟨key, r, hr, hwhole⟩
  rcases allocate_releaseAll hr with ⟨r', hallocate, hreleased⟩
  rw [releaseAll] at hreleased
  subst hreleased
  exact ⟨key, r', hleaf.trans hallocate, hwhole⟩

mutual

/-- Where there is room for an expression, it is put into the pool. -/
theorem insert_succeeds {p : Pool} {handles : List Nat} (x : Expr) (h : Balanced p [] handles)
    (hroom : x.charge ≤ p.free) :
    ∃ key q, p.insert x = .ok (key, q) ∧ Inserted p q handles [key] [x] := by
  cases x with
  | apply f xs =>
      have hcharge : (Expr.apply f xs).charge =
          Expr.chargeAll xs + Node.chargeOf (.apply f []) xs.length := Expr.charge_eq (.apply f xs)
      rcases insertAll_succeeds xs h (by omega) with ⟨keys, q, hq, hinserted⟩
      rw [← hinserted.shows.length_eq] at hcharge
      rcases hinserted.allocateOver (.apply f []) rfl hcharge hroom with ⟨key, r, hr, hwhole⟩
      refine ⟨key, r, ?_, hwhole⟩
      rcases allocate_releaseAll hr with ⟨r', hallocate, rfl⟩
      rw [insert, hq]
      show (allocate q (.apply f []) keys >>= fun made =>
        Except.ok (made.1, made.2.releaseAll keys)) = _
      rw [hallocate]
      rfl
  | rational => exact insert_leaf h rfl rfl rfl hroom
  | decimal => exact insert_leaf h rfl rfl rfl hroom
  | infinity => exact insert_leaf h rfl rfl rfl hroom
  | constant => exact insert_leaf h rfl rfl rfl hroom
  | symbol => exact insert_leaf h rfl rfl rfl hroom

theorem insertAll_succeeds {p : Pool} {handles : List Nat} (xs : List Expr)
    (h : Balanced p [] handles) (hroom : Expr.chargeAll xs ≤ p.free) :
    ∃ keys q, p.insertAll xs = .ok (keys, q) ∧ Inserted p q handles keys xs := by
  cases xs with
  | nil => exact ⟨[], p, by rw [insertAll], .nil h⟩
  | cons x xs =>
      rw [Expr.chargeAll] at hroom
      rcases insert_succeeds x h (by omega) with ⟨key, q, hq, hfirst⟩
      have hleft : Expr.chargeAll xs ≤ q.free := by
        apply hfirst.spends.free
        show x.charge + 0 + Expr.chargeAll xs ≤ p.free
        omega
      rcases insertAll_succeeds xs hfirst.copied.balanced hleft with ⟨keys, r, hr, hrest⟩
      refine ⟨key :: keys, r, ?_, hfirst.cons hrest⟩
      rw [insertAll, hq]
      show (insertAll q xs >>= fun rest => Except.ok (key :: rest.1, rest.2)) = _
      rw [hr]
      rfl

end

end Pool

namespace Pool

variable {p q : Pool} {handles : List Nat} {key : Nat} {x t : Expr}

/-- A pool `q` has come from a pool `p` by putting an expression into it, to which there is one new
handle. -/
structure Gains (p q : Pool) (handles : List Nat) (key : Nat) (x : Expr) : Prop where
  balanced : Balanced q [] (key :: handles)
  read : q.read key = x
  others : ∀ handle ∈ handles, q.read handle = p.read handle

theorem insert_gains (h : Balanced p [] handles) (hroom : x.charge ≤ p.free) :
    ∃ key q, p.insert x = .ok (key, q) ∧ Gains p q handles key x := by
  rcases insert_succeeds x h hroom with ⟨key, q, hq, hinserted⟩
  rcases List.forall₂_cons.mp hinserted.shows with ⟨hshows, -⟩
  refine ⟨key, q, hq, hinserted.copied.balanced, hshows.read_eq, ?_⟩
  intro handle hhandle
  exact read_evolves h hinserted.copied.balanced hinserted.copied.evolves hhandle

/-! ## Bytes that are read -/

theorem decode_round_trip (hp : Balanced p [] handles) (hvalid : t.CodecValid)
    (hdepth : t.depth ≤ 513) (hroom : t.charge ≤ p.free) (hmemory : p.free < 2 ^ 64) :
    (∀ front : List UInt8,
      Codec.takeNode Codec.maxLevels ⟨(front ++ t.encode).reverse, p.free⟩ =
        .ok (t, ⟨front.reverse, p.free - t.charge⟩)) ∧
    (∃ key q, p.decode t.encode = .ok (key, q) ∧ Gains p q handles key t) ∧
    (∀ front : List UInt8, front ≠ [] →
      p.decode (front ++ t.encode) = .error (.trailingBytes front.length)) ∧
    (∀ back : List UInt8, back <:+ t.encode → back ≠ t.encode →
      p.decode back = .error .truncated) ∧
    t.byteSize = t.encode.length := by
  rcases Expr.decode_encode hvalid hdepth hroom hmemory with
    ⟨hwhole, htree, htrailing, htruncated, hsize⟩
  refine ⟨hwhole, ?_, ?_, ?_, hsize⟩
  · rcases insert_gains hp hroom with ⟨key, q, hq, hgains⟩
    refine ⟨key, q, ?_, hgains⟩
    unfold Pool.decode
    simp only [htree, hq, bind, Except.bind]
    rfl
  · intro front hfront
    unfold Pool.decode
    rw [htrailing front hfront]
    rfl
  · intro back hback hproper
    unfold Pool.decode
    rw [htruncated back hback hproper]
    rfl

/-- The row of a fraction and of a call. -/
def mixedRow : Expr :=
  .apply (.matrix 1 2) [.rational (-3 / 4), .apply (.function "f") [.decimal ⟨15, 8⟩]]

theorem codecValid_mixedRow : mixedRow.CodecValid := by
  have hcall : Expr.CodecValid (.apply (.function "f") [.decimal ⟨15, 8⟩]) := by
    constructor
    · show "f" ≠ ""
      decide
    · rfl
    · intro y hy
      rw [Expr.operands, List.mem_singleton] at hy
      subst hy
      constructor
      · show (-2 ^ 63 : Int) ≤ 8 ∧ (8 : Int) < 2 ^ 63
        decide
      · rfl
      · intro z hz
        cases hz
  constructor
  · show (0 < 1 ∧ 1 < 2 ^ 32) ∧ 0 < 2 ∧ 2 < 2 ^ 32
    decide
  · rfl
  · intro y hy
    simp only [mixedRow, Expr.operands, List.mem_cons, List.not_mem_nil, or_false] at hy
    rcases hy with rfl | rfl
    · constructor
      · trivial
      · rfl
      · intro z hz
        cases hz
    · exact hcall

theorem decode_round_trip_mixedRow :
    (∃ key q, (empty 1000 0).decode mixedRow.encode = .ok (key, q) ∧ q.read key = mixedRow) ∧
      mixedRow.byteSize = mixedRow.encode.length := by
  have hroom : mixedRow.charge ≤ (empty 1000 0).free := by decide +kernel
  have htrip := decode_round_trip (Balanced.empty 1000 0) codecValid_mixedRow (by decide) hroom
    (by decide)
  rcases htrip.2.1 with ⟨key, q, hq, hgains⟩
  exact ⟨⟨key, q, hq, hgains.read⟩, htrip.2.2.2.2⟩

/-! ## Texts that are read -/

/-- A text that an expression is written with is read as an expression that differs only in
notation, unless the operands are nested too deeply; and what is read has the same text. -/
theorem parse_toText {style : NumberStyle} (h : x.Printable style) :
    ∃ t, Expr.Akin t x ∧ t.toText style = x.toText style ∧
      ∀ (p : Pool) (handles : List Nat), Balanced p [] handles → t.charge ≤ p.free →
        (∃ key q, p.parse (x.toText style) = .ok (key, q) ∧ Gains p q handles key t) ∨
          ∃ span, p.parse (x.toText style) = .error ⟨.nestingTooDeep, span⟩ ∧
            Parser.maxNesting < t.depth := by
  rcases Expr.parse_printed h with ⟨t, hakin, htext, hparse⟩
  refine ⟨t, hakin, htext, ?_⟩
  intro p handles hp hroom
  rcases hparse p.free hroom with hok | ⟨span, herror, hdeep⟩
  · rcases insert_gains hp hroom with ⟨key, q, hq, hgains⟩
    refine Or.inl ⟨key, q, ?_, hgains⟩
    unfold Pool.parse
    simp only [hok, hq, bind, Except.bind]
    rfl
  · refine Or.inr ⟨span, ?_, hdeep⟩
    unfold Pool.parse
    rw [herror]
    rfl

/-- A difference of a sum, a negative fraction and a literal with zeros behind the point, assigned
to a function. -/
def sampleAssignment : Expr :=
  .apply .store [.apply .subtraction [.apply .addition [.symbol "x", .rational (-1 / 2)],
    .decimal ⟨1200, 5⟩], .apply (.function "f") [.symbol "x"]]

theorem printable_sampleAssignment : sampleAssignment.Printable {} := by
  have hx : LegalName "x" := ⟨by decide, by decide, by decide, by decide⟩
  have hf : LegalName "f" := ⟨by decide, by decide, by decide, by decide⟩
  have hsum : Expr.Writable {} (.apply .addition [.symbol "x", .rational (-1 / 2)]) := by
    refine .compound (by decide) rfl (by decide) ?_
    simp only [List.forall_mem_cons, List.not_mem_nil, false_implies, implies_true, and_true]
    exact ⟨.symbol hx, .rational _⟩
  have hdecimal : Expr.Writable {} (.decimal ⟨1200, 5⟩) :=
    .decimal (by decide +kernel) (by decide +kernel)
  refine .assignment (.compound (by decide) rfl (by decide) ?_)
    (.function hf (by decide) hx (by decide) (by decide))
  simp only [List.forall_mem_cons, List.not_mem_nil, false_implies, implies_true, and_true]
  exact ⟨hsum, hdecimal⟩

theorem parse_toText_sampleAssignment :
    sampleAssignment.toText {} = "x+-1/2-0.012→f(x)" ∧
      ∃ t, Expr.Akin t sampleAssignment ∧ t.toText {} = sampleAssignment.toText {} ∧
        ∀ (p : Pool) (handles : List Nat), Balanced p [] handles → t.charge ≤ p.free →
          (∃ key q, p.parse (sampleAssignment.toText {}) = .ok (key, q) ∧
            Gains p q handles key t) ∨
          ∃ span, p.parse (sampleAssignment.toText {}) = .error ⟨.nestingTooDeep, span⟩ ∧
            Parser.maxNesting < t.depth :=
  ⟨by decide +kernel, parse_toText printable_sampleAssignment⟩

end Pool
end PocketAlgebra
