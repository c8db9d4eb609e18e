import PocketAlgebra.Chunks
import PocketAlgebra.Proofs.Codec.Safety
import PocketAlgebra.Proofs.Expr.Everywhere
import PocketAlgebra.Proofs.Grammar.Soundness

/-!
# What is read is well formed

The trees of texts keep rules that the stages behind the reader rely on: how many operands there
are, what may be bound, named and assigned to, and where relations may stand. So their bytes are
read back into any pool with room.
-/

namespace PocketAlgebra

namespace Expr

theorem Everywhere.codecValid {x : Expr}
    (h : Everywhere (fun y => y.PayloadValid ∧
      Codec.acceptsCount y y.operands.length = true) x) : x.CodecValid := by
  induction h with
  | node here _ ih => exact .node here.1 here.2 ih

/-! ## Nodes -/

/-- The names that texts may use, reserved ones apart. -/
structure Usable (name : String) : Prop where
  nonempty : name ≠ ""
  short : name.length ≤ maxIdentifierLength
  free : isReservedName name = false

/-- The operators no operand of which may be a relation. -/
def refusesComparison : Operator → Bool
  | .addition | .subtraction | .multiplication | .division | .power => true
  | .opposite | .factorial | .comparison _ => true
  | _ => false

/-- The rules that an operator and its operands keep. -/
structure OperationFormed (f : Operator) (xs : List Expr) : Prop where
  count : Codec.acceptsCount (.apply f xs) xs.length = true
  binary : f = .addition ∨ f = .multiplication → xs.length = 2
  sides : ∀ rows columns, f = .matrix rows columns → 0 < rows ∧ 0 < columns
  name : ∀ name, f = .function name → Usable name
  argument : ∀ name, f = .function name → .symbol name ∉ xs
  bound : f.kind.isParametered = true → ∃ name, xs[1]? = some (.symbol name) ∧ Usable name
  unassigned : f ≠ .store
  comparison : refusesComparison f = true → ∀ x ∈ xs, x.kind ≠ .comparison

/-- The rules that a node keeps. -/
def NodeFormed : Expr → Prop
  | rational q => ∃ n : Nat, q = n
  | symbol name => Usable name ∨ name = "ans"
  | apply f xs => OperationFormed f xs
  | _ => True

/-- What may be assigned to. -/
inductive TargetFormed : Expr → Prop where
  | symbol {name : String} (h : Usable name) : TargetFormed (.symbol name)
  | function {name parameter : String} (h : Usable name) (hparameter : Usable parameter)
      (hother : parameter ≠ name) :
    TargetFormed (.apply (.function name) [.symbol parameter])

/-- A tree whose nodes keep the rules, or the assignment of one that is no relation. -/
inductive WellFormed : Expr → Prop where
  | value {x : Expr} (h : Everywhere NodeFormed x) : WellFormed x
  | assignment {x target : Expr} (h : Everywhere NodeFormed x) (hkind : x.kind ≠ .comparison)
      (htarget : TargetFormed target) : WellFormed (.apply .store [x, target])

/-- The scale of a decimal literal is at most so far from zero. -/
def ScaleWithin (limit : Nat) : Expr → Prop
  | decimal d => d.scale.natAbs ≤ limit
  | _ => True

/-- The sides of a matrix are no longer than those of matrices that are made in a pool. -/
def SidesFit : Expr → Prop
  | apply (.matrix rows columns) _ => rows ≤ Pool.maxMatrixSide ∧ columns ≤ Pool.maxMatrixSide
  | _ => True

instance : DecidablePred SidesFit := fun x => by
  unfold SidesFit
  split <;> infer_instance

end Expr

namespace Grammar

open PocketAlgebra.Expr

/-! ## Tokens -/

/-- What tokens of a text with so many characters are like. -/
structure Scanned (length : Nat) (token : Token) : Prop where
  nonempty : token.text ≠ ""
  short : token.text.length ≤ length
  unreserved : token.kind = .identifier → reservedFunction? token.text = none

theorem identifier_of_sign {c : Char} {next : Option Char}
    (h : (Token.scanSign c next).1 = .identifier) : c = 'π' ∨ c = 'ℯ' ∨ c = '𝐢' := by
  unfold Token.scanSign at h
  split at h
  case h_1 => exact .inl rfl
  case h_2 => exact .inr (.inl rfl)
  case h_3 => exact .inr (.inr rfl)
  all_goals first | cases h | split_ifs at h

theorem scanned_of_mem_scan {text : String} {token : Token} (h : token ∈ Token.scan text) :
    Scanned text.length token := by
  rcases exists_scanFrom h with ⟨c, rest, hsuffix, hkind, htext⟩
  have hlength : (c :: rest).length ≤ text.length := by
    rw [← String.length_toList]
    exact hsuffix.length_le
  refine ⟨?_, ?_, ?_⟩
  · rw [htext]
    simp
  · rw [htext, String.length_ofList, List.length_cons, List.length_take]
    rw [List.length_cons] at hlength
    omega
  · intro hidentifier
    rw [hkind] at hidentifier
    rw [htext]
    unfold Token.scanFrom at hidentifier ⊢
    split_ifs at hidentifier ⊢
    · dsimp only at hidentifier
      rcases scanNumber_numeric (c :: rest) with hnumber | hnumber <;>
        rw [hnumber] at hidentifier <;> cases hidentifier
    · dsimp only at hidentifier ⊢
      rcases identifierKind_cases
        (String.ofList (c :: rest.take (Token.identifierLength rest))) with
        hname | ⟨-, hname⟩
      · rw [hname] at hidentifier
        cases hidentifier
      · exact hname
    · rcases identifier_of_sign hidentifier with rfl | rfl | rfl
      · exact (by decide : reservedFunction? (String.ofList ['π']) = none)
      · exact (by decide : reservedFunction? (String.ofList ['ℯ']) = none)
      · exact (by decide : reservedFunction? (String.ofList ['𝐢']) = none)

/-! ## Tokens of phrases -/

theorem Enclosed.mem {opening closing : TokenKind} {us ts : List Token} {token : Token}
    (h : Enclosed opening closing us ts) (htoken : token ∈ us) : token ∈ ts := by
  cases h
  simp [htoken]

theorem Separated.mem {pieces : List (List Token)} {ts piece : List Token} {token : Token}
    (h : Separated pieces ts) (hpiece : piece ∈ pieces) (htoken : token ∈ piece) : token ∈ ts := by
  induction h with
  | nil => cases hpiece
  | one => rwa [← List.mem_singleton.mp hpiece]
  | more _ _ ih =>
      rcases List.mem_cons.mp hpiece with rfl | hpiece
      · exact List.mem_append_left _ htoken
      · exact List.mem_append_right _ (List.mem_cons_of_mem _ (ih hpiece))

theorem Row.mem {cells : List (List Token)} {ts cell : List Token} {token : Token}
    (h : Row cells ts) (hcell : cell ∈ cells) (htoken : token ∈ cell) : token ∈ ts := by
  rcases h with ⟨inner, hinner, hts⟩
  exact hts.mem (hinner.mem hcell htoken)

theorem Rows.mem {rows : List (List (List Token))} {row : List (List Token)}
    {ts cell : List Token} {token : Token} (h : Rows rows ts) (hrow : row ∈ rows)
    (hcell : cell ∈ row) (htoken : token ∈ cell) : token ∈ ts := by
  induction h with
  | one h =>
      obtain rfl := List.mem_singleton.mp hrow
      exact h.mem hcell htoken
  | next h _ ih =>
      rcases List.mem_cons.mp hrow with rfl | hrow
      · exact List.mem_append_left _ (h.mem hcell htoken)
      · exact List.mem_append_right _ (ih hrow)
  | comma h _ _ ih =>
      rcases List.mem_cons.mp hrow with rfl | hrow
      · exact List.mem_append_left _ (h.mem hcell htoken)
      · exact List.mem_append_right _ (List.mem_cons_of_mem _ (ih hrow))

/-! ## Trees -/

section Trees

variable {length : Nat} {p : Phrase} {ts : List Token} {x : Expr} {token : Token}

/-- The rules that hold of every node of the tree of a text of so many characters. -/
def Formed (length : Nat) (x : Expr) : Prop :=
  x.Everywhere fun y => NodeFormed y ∧ ScaleWithin (length + Numeral.maxExponent) y

theorem Formed.leaf (hoperands : x.operands = []) (hnode : NodeFormed x)
    (hscale : ScaleWithin (length + Numeral.maxExponent) x) : Formed length x :=
  (everywhere_leaf hoperands).mpr ⟨hnode, hscale⟩

theorem Formed.apply {f : Operator} {xs : List Expr} (h : OperationFormed f xs)
    (hxs : ∀ y ∈ xs, Formed length y) : Formed length (.apply f xs) :=
  everywhere_apply.mpr ⟨⟨h, trivial⟩, hxs⟩

theorem exponent_le (digits : List Char) :
    (Numeral.exponent digits).natAbs ≤ Numeral.maxExponent := by
  unfold Numeral.exponent
  split <;> omega

theorem read_formed (literal : List Char) (h : literal.length ≤ length) :
    Formed length (Numeral.read literal) := by
  have hdecimal : ∀ (digits : Nat) (fraction : List Char) (e : Int), fraction.length ≤ length →
      e.natAbs ≤ Numeral.maxExponent →
      Formed length (.decimal ⟨digits, fraction.length - e⟩) := by
    intro digits fraction e hfraction he
    refine .leaf rfl trivial ?_
    show ((fraction.length : Int) - e).natAbs ≤ length + Numeral.maxExponent
    omega
  have hfraction : (((literal.takeWhile (· ≠ exponentMarker)).dropWhile (· ≠ '.')).drop 1).length ≤
      length := by
    have hdrop := List.Sublist.length_le
      (((List.drop_sublist 1 _).trans (List.dropWhile_sublist (· ≠ '.'))).trans
        (List.takeWhile_sublist (· ≠ exponentMarker)) : List.Sublist _ literal)
    exact Nat.le_trans hdrop h
  unfold Numeral.read
  dsimp only
  split
  · exact hdecimal _ _ _ hfraction (exponent_le _)
  · split
    · exact .leaf rfl ⟨_, rfl⟩ trivial
    · simpa using hdecimal _ _ 0 hfraction (by decide)

theorem usable_of_legal {name : String} (hlegal : Legal name) (hnonempty : name ≠ "")
    (hunreserved : reservedFunction? name = none) : Usable name ∨ name = "ans" := by
  by_cases hanswer : name = "ans"
  · exact .inr hanswer
  · refine .inl ⟨hnonempty, hlegal.short, ?_⟩
    have hword := hlegal.notWord
    have hsequence := hlegal.notSequence
    simp only [List.mem_cons, List.not_mem_nil, or_false, not_or] at hword hsequence
    simp [isReservedName, hunreserved, hlegal.notConstant, keywords, hanswer, hword, hsequence]

/-- An operator that is neither a function with a name of its own, nor a matrix, nor assigns. -/
def isPlain : Operator → Bool
  | .function _ | .matrix _ _ | .store => false
  | _ => true

theorem operationFormed_of_plain {f : Operator} {xs : List Expr} (hplain : isPlain f = true)
    (hcount : Codec.acceptsCount (.apply f xs) xs.length = true)
    (hbinary : f = .addition ∨ f = .multiplication → xs.length = 2)
    (hbound : f.kind.isParametered = true → ∃ name, xs[1]? = some (.symbol name) ∧ Usable name)
    (hcomparison : refusesComparison f = true → ∀ x ∈ xs, x.kind ≠ .comparison) :
    OperationFormed f xs := by
  refine ⟨hcount, hbinary, ?_, ?_, ?_, hbound, ?_, hcomparison⟩
  · rintro rows columns rfl
    cases hplain
  · rintro name rfl
    cases hplain
  · rintro name rfl
    cases hplain
  · rintro rfl
    cases hplain

theorem refusesComparison_of_binary {f : Operator} (h : f = .addition ∨ f = .multiplication) :
    refusesComparison f = true := by
  rcases h with rfl | rfl <;> rfl

/-- An operator that takes whatever operands it is called with. -/
theorem operationFormed_of_any {f : Operator} {xs : List Expr} (hplain : isPlain f = true)
    (hcount : Codec.acceptsCount (.apply f xs) xs.length = true)
    (hbound : f.kind.isParametered = false) (hcomparison : refusesComparison f = false) :
    OperationFormed f xs := by
  apply operationFormed_of_plain hplain hcount
  · intro hbinary
    rw [refusesComparison_of_binary hbinary] at hcomparison
    cases hcomparison
  · intro h
    rw [hbound] at h
    cases h
  · intro h
    rw [hcomparison] at h
    cases h

/-- An operator no operand of which is a relation. -/
theorem operationFormed_of_operands {f : Operator} {xs : List Expr} (hplain : isPlain f = true)
    (hcount : Codec.acceptsCount (.apply f xs) xs.length = true)
    (hbinary : f = .addition ∨ f = .multiplication → xs.length = 2)
    (hbound : f.kind.isParametered = false) (hxs : ∀ x ∈ xs, x.kind ≠ .comparison) :
    OperationFormed f xs := by
  apply operationFormed_of_plain hplain hcount hbinary
  · intro h
    rw [hbound] at h
    cases h
  · exact fun _ => hxs

theorem function_formed {name : String} (hname : Usable name) (hx : x ≠ .symbol name) :
    OperationFormed (.function name) [x] := by
  refine ⟨rfl, ?_, ?_, ?_, ?_, ?_, ?_, ?_⟩
  · rintro (h | h) <;> cases h
  · rintro _ _ ⟨⟩
  · rintro _ ⟨⟩
    exact hname
  · rintro _ ⟨⟩ hmem
    exact hx (List.mem_singleton.mp hmem).symm
  · rintro ⟨⟩
  · rintro ⟨⟩
  · rintro ⟨⟩

theorem names_formed (h : Names token.text x) (htoken : Scanned length token)
    (hkind : token.kind = .identifier) : Formed length x := by
  generalize htext : token.text = name at h
  cases h with
  | constant c => exact .leaf rfl trivial trivial
  | infinity => exact .leaf rfl trivial trivial
  | undefined => exact .apply (operationFormed_of_any rfl rfl rfl rfl) (List.forall_mem_nil _)
  | nonreal => exact .apply (operationFormed_of_any rfl rfl rfl rfl) (List.forall_mem_nil _)
  | symbol hlegal =>
      subst htext
      exact .leaf rfl (usable_of_legal hlegal htoken.nonempty (htoken.unreserved hkind)) trivial

theorem joins_formed {left right : Phrase} {kind : TokenKind} {f : Operator} {us : List Token}
    {y : Expr} (h : Joins p left kind right f) (hx : Derives left ts x) (hy : Derives right us y) :
    OperationFormed f [x, y] := by
  have hoperands : ∀ z ∈ [x, y], z.kind ≠ .comparison := by
    simp only [List.mem_cons, List.not_mem_nil, or_false, forall_eq_or_imp, forall_eq]
    cases h <;> exact ⟨hx.kind_ne_comparison nofun, hy.kind_ne_comparison nofun⟩
  apply operationFormed_of_operands
  · cases h <;> rfl
  · cases h <;> rfl
  · exact fun _ => rfl
  · cases h <;> rfl
  · exact hoperands

/-- The operators of reserved functions, and the numbers of operands they are called with. -/
theorem callOperator_accepts {name : String} {entry : FunctionEntry} {count : Nat}
    (hentry : reservedFunction? name = some entry)
    (hcount : count = entry.least ∨ count = entry.most) :
    isPlain (Parser.callOperator entry.kind count) = true ∧
      (Parser.callOperator entry.kind count).kind.arity.accepts count = true ∧
      refusesComparison (Parser.callOperator entry.kind count) = false := by
  unfold reservedFunction? at hentry
  rcases Option.map_eq_some_iff.mp hentry with ⟨k, hfind, hk⟩
  have hname := List.find?_some hfind
  cases k <;> first
    | (exfalso; revert hname; simp [Kind.sharesName, Kind.functionName?]; done)
    | (subst hk; rcases hcount with rfl | rfl <;> decide)

theorem acceptsCount_of_plain {f : Operator} {xs : List Expr} {count : Nat}
    (hplain : isPlain f = true) (h : f.kind.arity.accepts count = true) :
    Codec.acceptsCount (.apply f xs) count = true := by
  cases f with
  | matrix rows columns => cases hplain
  | _ => exact h

theorem reserved_formed {name : String} {entry : FunctionEntry} {xs : List Expr}
    (hentry : reservedFunction? name = some entry) (hadmits : Admits entry xs)
    (hxs : ∀ y ∈ xs, Formed length y) :
    OperationFormed (Parser.callOperator entry.kind xs.length) xs := by
  rcases callOperator_accepts hentry hadmits.count with ⟨hplain, haccepts, hrefuses⟩
  have hallows : ¬ refusesComparison (Parser.callOperator entry.kind xs.length) = true := by
    simp [hrefuses]
  apply operationFormed_of_plain hplain (acceptsCount_of_plain hplain haccepts)
  · exact fun hbinary => absurd (refusesComparison_of_binary hbinary) hallows
  · intro hparametered
    rcases hadmits.bound hparametered with ⟨variableName, hvariable, hfree⟩
    refine ⟨variableName, hvariable, ?_⟩
    cases hxs _ (List.mem_of_getElem? hvariable) with
    | node here _ =>
        rcases here.1 with husable | rfl
        · exact husable
        · cases hfree
  · exact fun hrefused => absurd hrefused hallows

theorem matrix_formed {rows : List (List (List Token × Expr))} {columns : Nat} {us : List Token}
    (hus : Rows (rows.map (List.map Prod.fst)) us) (hcolumns : 0 < columns)
    (hrows : ∀ row ∈ rows, row.length = columns) :
    OperationFormed (.matrix rows.length columns) (rows.flatten.map Prod.snd) := by
  have hpositive : 0 < rows.length := by
    cases rows with
    | nil => cases hus
    | cons row rows => simp
  have hcount : (rows.flatten.map Prod.snd).length = rows.length * columns := by
    rw [List.length_map, length_flatten_of_forall hrows]
  refine ⟨by simpa [Codec.acceptsCount] using hcount, ?_, ?_, ?_, ?_, ?_, ?_, ?_⟩
  · rintro (h | h) <;> cases h
  · rintro _ _ ⟨⟩
    exact ⟨hpositive, hcolumns⟩
  · rintro _ ⟨⟩
  · rintro _ ⟨⟩
  · rintro ⟨⟩
  · rintro ⟨⟩
  · rintro ⟨⟩

/-- Every phrase is derived as a tree whose nodes keep the rules. -/
theorem Derives.formed (h : Derives p ts x) (hts : ∀ token ∈ ts, Scanned length token) :
    Formed length x := by
  induction h with
  | simpler _ _ ih => exact ih hts
  | operation h hsign hx hy ihx ihy =>
      apply Formed.apply (joins_formed h hx hy)
      simp only [List.mem_cons, List.not_mem_nil, or_false, forall_eq_or_imp, forall_eq]
      exact ⟨ihx fun token htoken => hts token (by simp [htoken]),
        ihy fun token htoken => hts token (by simp [htoken])⟩
  | @opposite p sign ts x h hsign hx ih =>
      have hkind : x.kind ≠ .comparison := by
        apply hx.kind_ne_comparison
        rintro rfl
        cases h
      apply Formed.apply
      · refine operationFormed_of_operands rfl rfl ?_ rfl (List.forall_mem_singleton.mpr hkind)
        rintro (h | h) <;> cases h
      · simpa using ih fun token htoken => hts token (by simp [htoken])
  | adjacency h hx hy ihx ihy =>
      apply Formed.apply
      · refine operationFormed_of_operands rfl rfl (fun _ => rfl) rfl ?_
        simp only [List.mem_cons, List.not_mem_nil, or_false, forall_eq_or_imp, forall_eq]
        exact ⟨hx.kind_ne_comparison (by decide), hy.kind_ne_comparison (by decide)⟩
      · simp only [List.mem_cons, List.not_mem_nil, or_false, forall_eq_or_imp, forall_eq]
        exact ⟨ihx fun token htoken => hts token (by simp [htoken]),
          ihy fun token htoken => hts token (by simp [htoken])⟩
  | @factorial sign ts x hsign hx ih =>
      have hkind := hx.kind_ne_comparison (by decide)
      apply Formed.apply
      · refine operationFormed_of_operands rfl rfl ?_ rfl (List.forall_mem_singleton.mpr hkind)
        rintro (h | h) <;> cases h
      · simpa using ih fun token htoken => hts token (by simp [htoken])
  | @number token h =>
      apply read_formed
      rw [String.length_toList]
      exact (hts token (List.mem_singleton_self _)).short
  | @name token x h hx => exact names_formed hx (hts token (List.mem_singleton_self _)) h
  | @call token ts us x h hname henclosed hx hother ih =>
      have htoken := hts token (List.mem_cons_self ..)
      have husable : Usable token.text := by
        rcases usable_of_legal hname.toLegal htoken.nonempty (htoken.unreserved h) with
          husable | hanswer
        · exact husable
        · exact absurd hanswer hname.notAnswer
      apply Formed.apply
      · exact function_formed husable hother
      · simpa using ih fun token htoken =>
          hts token (List.mem_cons_of_mem _ (henclosed.mem htoken))
  | parenthesis henclosed hx ih =>
      apply Formed.apply
      · exact operationFormed_of_any rfl rfl rfl rfl
      · simpa using ih fun token htoken => hts token (henclosed.mem htoken)
  | @list items ts us henclosed hus hitems ih =>
      apply Formed.apply
      · have haccepts : ∀ count, (Arity.range 0 none).accepts count = true := by
          simp [Arity.accepts]
        exact operationFormed_of_any rfl (haccepts (items.map Prod.snd).length) rfl rfl
      · rintro y hy
        rcases List.mem_map.mp hy with ⟨item, hitem, rfl⟩
        exact ih item hitem fun token htoken =>
          hts token (henclosed.mem (hus.mem (List.mem_map_of_mem hitem) htoken))
  | @matrix rows columns ts us henclosed hus hcolumns hrows hitems ih =>
      apply Formed.apply (matrix_formed hus hcolumns hrows)
      intro y hy
      rcases List.mem_map.mp hy with ⟨item, hitem, rfl⟩
      rcases List.mem_flatten.mp hitem with ⟨row, hrow, hcell⟩
      exact ih row hrow item hcell fun token htoken => hts token (henclosed.mem
        (hus.mem (List.mem_map_of_mem hrow) (List.mem_map_of_mem hcell) htoken))
  | logarithm h hentry hkind hunderscore henclosed hbase hvs hx ihbase ihx =>
      apply Formed.apply
      · exact operationFormed_of_any rfl rfl rfl rfl
      · simp only [List.mem_cons, List.not_mem_nil, or_false, forall_eq_or_imp, forall_eq]
        exact ⟨ihx fun token htoken => hts token (by simp [hvs.mem htoken]),
          ihbase fun token htoken => hts token (by simp [henclosed.mem htoken])⟩
  | @reserved token entry items ts us h hentry henclosed hus hitems hadmits ih =>
      have hxs : ∀ y ∈ items.map Prod.snd, Formed length y := by
        rintro y hy
        rcases List.mem_map.mp hy with ⟨item, hitem, rfl⟩
        exact ih item hitem fun token htoken => hts token (List.mem_cons_of_mem _
          (henclosed.mem (hus.mem (List.mem_map_of_mem hitem) htoken)))
      have hnode := reserved_formed hentry hadmits hxs
      rw [List.length_map] at hnode
      exact Formed.apply hnode hxs

theorem usable_of_assignable (h : Assignable token) (htoken : Scanned length token) :
    Usable token.text :=
  ⟨htoken.nonempty, h.short, h.free⟩

/-- A target keeps the rules of targets, and its nodes those of nodes. -/
theorem Target.formed (h : Target ts x) (hts : ∀ token ∈ ts, Scanned length token) :
    TargetFormed x ∧ Formed length x := by
  cases h with
  | @symbol token h =>
      have husable := usable_of_assignable h (hts token (List.mem_singleton_self _))
      exact ⟨.symbol husable, .leaf rfl (.inl husable) trivial⟩
  | @function token parameter ts h hparameter hother henclosed =>
      have husable := usable_of_assignable h (hts token (List.mem_cons_self ..))
      have hscanned := hts parameter
        (List.mem_cons_of_mem _ (henclosed.mem (List.mem_singleton_self _)))
      have husableParameter := usable_of_assignable hparameter hscanned
      refine ⟨.function husable husableParameter hother, ?_⟩
      apply Formed.apply
      · exact function_formed husable fun h => hother (Expr.symbol.inj h)
      · intro y hy
        obtain rfl := List.mem_singleton.mp hy
        exact .leaf rfl (.inl husableParameter) trivial

end Trees

end Grammar

namespace Expr

/-- A node can be written as bytes if its numbers are of machine size. -/
def Storable (limit : Nat) (y : Expr) : Prop :=
  Codec.acceptsCount y y.operands.length = true ∧
    (limit < 2 ^ 63 → y.SidesFit → y.PayloadValid)

theorem storable_of_nodeFormed {limit : Nat} {y : Expr} (h : NodeFormed y)
    (hscale : ScaleWithin limit y) : Storable limit y := by
  cases y with
  | rational q => exact ⟨rfl, fun _ _ => trivial⟩
  | decimal d =>
      refine ⟨rfl, fun hlimit _ => ?_⟩
      have hscale : d.scale.natAbs ≤ limit := hscale
      show -2 ^ 63 ≤ d.scale ∧ d.scale < 2 ^ 63
      omega
  | infinity negative => exact ⟨rfl, fun _ _ => trivial⟩
  | constant c => exact ⟨rfl, fun _ _ => trivial⟩
  | symbol name =>
      refine ⟨rfl, fun _ _ => ?_⟩
      rcases h with husable | rfl
      · exact husable.nonempty
      · show "ans" ≠ ""
        decide
  | apply f xs =>
      refine ⟨h.count, fun _ hsides => ?_⟩
      cases f with
      | function name => exact (h.name name rfl).nonempty
      | matrix rows columns =>
          rcases h.sides rows columns rfl with ⟨hrows, hcolumns⟩
          exact ⟨⟨hrows, Nat.lt_succ_of_le hsides.1⟩, hcolumns, Nat.lt_succ_of_le hsides.2⟩
      | _ => trivial

end Expr

namespace Grammar

open PocketAlgebra.Expr

theorem Formed.storable {length : Nat} {x : Expr} (h : Formed length x) :
    x.Everywhere (Storable (length + Numeral.maxExponent)) :=
  h.mono fun _ hy => storable_of_nodeFormed hy.1 hy.2

theorem Statement.formed {length : Nat} {ts : List Token} {x : Expr} (h : Statement ts x)
    (hts : ∀ token ∈ ts, Scanned length token) :
    x.WellFormed ∧ x.Everywhere (Storable (length + Numeral.maxExponent)) := by
  cases h with
  | value h =>
      have hx := h.formed hts
      exact ⟨.value (hx.mono fun _ hy => hy.1), hx.storable⟩
  | @assignment arrow ts us x target hx hkind harrow htarget =>
      have hformed := hx.formed fun token htoken => hts token (by simp [htoken])
      have htargetFormed := htarget.formed fun token htoken => hts token (by simp [htoken])
      refine ⟨.assignment (hformed.mono fun _ hy => hy.1) hkind htargetFormed.1, ?_⟩
      refine .node ⟨rfl, fun _ _ => trivial⟩ ?_
      simp only [Expr.operands, List.mem_cons, List.not_mem_nil, or_false, forall_eq_or_imp,
        forall_eq]
      exact ⟨hformed.storable, htargetFormed.2.storable⟩

end Grammar

namespace Expr

/-- The nodes of what is assigned to keep the rules as other nodes do. -/
theorem TargetFormed.everywhere {target : Expr} (h : TargetFormed target) :
    target.Everywhere NodeFormed := by
  cases h with
  | symbol hname => exact (everywhere_leaf rfl).mpr (.inl hname)
  | function hname hparameter hother =>
      refine everywhere_apply.mpr ⟨?_, ?_⟩
      · exact Grammar.function_formed hname fun h => hother (symbol.inj h)
      · exact List.forall_mem_singleton.mpr ((everywhere_leaf rfl).mpr (.inl hparameter))

/-- The nodes of the tree of a text keep the rules, an assignment at the top apart. -/
theorem nodeFormed_of_parse {free : Nat} {text : String} {x : Expr}
    (h : Expr.parse free text = .ok x) :
    x.Everywhere NodeFormed ∨ ∃ y target, x = .apply .store [y, target] ∧
      y.Everywhere NodeFormed ∧ target.Everywhere NodeFormed := by
  rcases Expr.statement_of_parse h with ⟨hstatement, -⟩
  rcases hstatement.formed fun _ => Grammar.scanned_of_mem_scan with ⟨hformed, -⟩
  cases hformed with
  | value hx => exact .inl hx
  | assignment hy _ htarget => exact .inr ⟨_, _, rfl, hy, htarget.everywhere⟩

end Expr

/-- Every tree that is read from a text keeps the rules, and is read back from its bytes into any
pool with room. The scale of its decimal literals fits into 64 bits because the text does; and a
pool has no room for a matrix with longer sides than those that it makes matrices with. -/
theorem Expr.wellFormed_of_parse {free : Nat} {text : String} {t : Expr}
    (h : Expr.parse free text = .ok t) :
    t.depth ≤ 256 ∧ t.WellFormed ∧
      (text.length + Numeral.maxExponent < 2 ^ 63 → t.Everywhere SidesFit →
        ∀ {p : Pool} {handles : List Nat}, Pool.Balanced p [] handles → t.charge ≤ p.free →
          p.free < 2 ^ 64 →
          ∃ key q, p.decode t.encode = .ok (key, q) ∧ Pool.Gains p q handles key t) := by
  rcases Expr.statement_of_parse h with ⟨hstatement, hdepth⟩
  rcases hstatement.formed fun _ => Grammar.scanned_of_mem_scan with ⟨hformed, hstorable⟩
  refine ⟨hdepth, hformed, ?_⟩
  intro hlength hsides p handles hp hroom hmemory
  have hvalid : t.CodecValid := by
    apply Everywhere.codecValid
    refine (hstorable.and hsides).mono ?_
    rintro y ⟨⟨hcount, hpayload⟩, hfits⟩
    exact ⟨hpayload hlength hfits, hcount⟩
  have hlevels : t.depth ≤ 513 := Nat.le_trans hdepth (by decide)
  exact Pool.gains_of_codecValid hp hvalid hlevels hroom hmemory

/-- A row with a sum over a bound variable, assigned to a function. -/
theorem Expr.wellFormed_of_parse_row :
    ∃ t, Expr.parse 2000 "[[ans,sum(2k!,k,1,n)]]→f(x)" = .ok t ∧ t.WellFormed ∧
      ∃ key q, (Pool.empty 2000 0).decode t.encode = .ok (key, q) ∧ q.read key = t := by
  let text := "[[ans,sum(2k!,k,1,n)]]→f(x)"
  let t : Expr := .apply .store
    [.apply (.matrix 1 2)
      [.symbol "ans",
        .apply .sum
          [.apply .multiplication [.integer 2, .apply .factorial [.symbol "k"]],
            .symbol "k", .integer 1, .symbol "n"]],
      .apply (.function "f") [.symbol "x"]]
  have hexact : t.Everywhere (·.kind ≠ .decimal) := by decide
  have hparse : Expr.parse 2000 text = .ok t := hexact.eq_ok (by decide +kernel)
  have hsides : t.Everywhere SidesFit := by decide
  rcases Expr.wellFormed_of_parse hparse with ⟨-, hformed, hstored⟩
  have hroom : t.charge ≤ (Pool.empty 2000 0).free := by decide +kernel
  rcases hstored (by decide +kernel) hsides (Pool.Balanced.empty 2000 0) hroom (by decide) with
    ⟨key, q, hq, hgains⟩
  exact ⟨t, hparse, hformed, key, q, hq, hgains.read⟩

end PocketAlgebra
