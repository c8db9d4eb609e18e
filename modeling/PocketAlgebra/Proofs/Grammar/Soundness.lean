import PocketAlgebra.Proofs.Grammar.Steps

/-!
# What is read is an expression of the grammar

Every text that the reader accepts is derived by the grammar as the expression that is read. The
reader of operators goes by the strength of what stands next, so each lemma also tells what may
follow the tokens that have been read.
-/

namespace PocketAlgebra

namespace Grammar

open PocketAlgebra.Parser

/-! ## Steps of reading -/


/-! ## Operands -/

/-- A phrase has been read, and what is left does not go on with it. -/
def ReadAs (p : Phrase) (rank : Nat) (s : State) (x : Expr) (s' : State) : Prop :=
  ∃ ts, Consumes s ts s' ∧ Derives p ts x ∧ Ended rank ts s'.tokens

/-- A reader of operands reads what the grammar derives. No operand stops at an operator that binds
more strongly than products without a sign. -/
def Sound (operand : Precedence → ParseM Expr) : Prop :=
  ∀ stop s, stop.rank ≤ Precedence.implicitTimes.rank → s.last.kind = .endOfStream →
    Ensures anyCause (operand stop) s (ReadAs (operandPhrase stop) stop.rank s)

/-- Expressions with commas between them have been read, and a closing token behind them. -/
def ItemsRead (close : TokenKind) (s : State) (xs : List Expr) (s' : State) : Prop :=
  ∃ (items : List (List Token × Expr)) (ts : List Token) (last : Token), last.kind = close ∧
    Consumes s (ts ++ [last]) s' ∧ Separated (items.map Prod.fst) ts ∧
    (∀ item ∈ items, Derives .comparison item.1 item.2) ∧ xs = items.map Prod.snd

/-- The same behind an opening token. -/
def EnclosedRead (opening close : TokenKind) (s : State) (xs : List Expr) (s' : State) : Prop :=
  ∃ (items : List (List Token × Expr)) (us ts : List Token), Consumes s ts s' ∧
    Enclosed opening close us ts ∧ Separated (items.map Prod.fst) us ∧
    (∀ item ∈ items, Derives .comparison item.1 item.2) ∧ xs = items.map Prod.snd

section Operands

variable {operand : Precedence → ParseM Expr} {s : State} {close : TokenKind}

theorem sound_store (h : Sound operand) (hlast : s.last.kind = .endOfStream) :
    Ensures anyCause (operand .store) s (ReadAs .comparison 0 s) :=
  h .store s (by decide) hlast

theorem separated_sound (h : Sound operand) (hclose : close ≠ .endOfStream) (rounds : Nat)
    (hlast : s.last.kind = .endOfStream) :
    Ensures anyCause (separated operand close rounds) s fun xs s' =>
      ItemsRead close s xs s' ∧ xs ≠ [] := by
  induction rounds generalizing s with
  | zero => exact Ensures.unexpected
  | succ rounds ih =>
      rw [separated]
      apply Ensures.bind
      refine (sound_store h hlast).mono ?_
      rintro x s₁ ⟨ts, hts, hx, -⟩
      apply Ensures.bind
      apply Ensures.current (hts.ending hlast)
      intro token htoken
      split
      · rename_i hcomma
        apply Ensures.bind
        apply Ensures.advance (by rw [← htoken, hcomma]; nofun)
        intro comma s₂ hkind hcons
        apply Ensures.bind
        refine (ih ((hts.trans hcons).ending hlast)).mono ?_
        rintro xs s₃ ⟨⟨items, us, last, hlastKind, hus, hseparated, hitems, rfl⟩, hne⟩
        apply Ensures.pure
        refine ⟨⟨(ts, x) :: items, ts ++ comma :: us, last, hlastKind, ?_, ?_, ?_, rfl⟩, by simp⟩
        · have hall := (hts.trans hcons).trans hus
          simpa using hall
        · cases items with
          | nil => exact absurd rfl hne
          | cons item items =>
              exact .more (by rw [hkind, ← htoken, hcomma]) hseparated
        · exact List.forall_mem_cons.mpr ⟨hx, hitems⟩
      · apply Ensures.ite
        · rename_i hother
          intro hkind
          apply Ensures.bind
          apply Ensures.advance (by rw [← htoken, hkind]; exact hclose)
          intro last s₂ hlastKind hcons
          apply Ensures.pure
          refine ⟨⟨[(ts, x)], ts, last, ?_, hts.trans hcons, .one ts, ?_, rfl⟩, by simp⟩
          · rw [hlastKind, ← htoken, hkind]
          · simpa using hx
        · intro _
          exact Ensures.unexpected

theorem sequence_sound (h : Sound operand) (hclose : close ≠ .endOfStream)
    (hlast : s.last.kind = .endOfStream) :
    Ensures anyCause (sequence operand close) s (ItemsRead close s) := by
  unfold Parser.sequence
  apply Ensures.bind
  apply Ensures.current hlast
  intro token htoken
  apply Ensures.ite
  · intro hkind
    apply Ensures.bind
    apply Ensures.advance (by rw [← htoken, hkind]; exact hclose)
    intro last s₁ hlastKind hcons
    apply Ensures.pure
    exact ⟨[], [], last, by rw [hlastKind, ← htoken, hkind], hcons, .nil, by simp, rfl⟩
  · intro _
    apply Ensures.bind
    apply Ensures.get
    exact (separated_sound h hclose _ hlast).mono fun _ _ hread => hread.1

theorem enclosed_sound (opening close : TokenKind) (h : Sound operand)
    (hopening : nextKind s.tokens = opening) (hstream : opening ≠ .endOfStream)
    (hclose : close ≠ .endOfStream) (hlast : s.last.kind = .endOfStream) :
    Ensures anyCause advance s fun _ s₁ =>
      Ensures anyCause (sequence operand close) s₁ (EnclosedRead opening close s) := by
  apply Ensures.advance (by rw [hopening]; exact hstream)
  intro first s₁ hfirst hcons
  refine (sequence_sound h hclose (hcons.ending hlast)).mono ?_
  rintro xs s' ⟨items, us, last, hlastKind, hitemsCons, hus, hitems, rfl⟩
  refine ⟨items, us, _, ?_, .intro (hfirst.trans hopening) hlastKind, hus, hitems, rfl⟩
  exact hcons.trans hitemsCons

end Operands

/-! ## Atoms -/

/-- An atom may be followed by any operator. -/
abbrev AtomRead :=
  ReadAs .atom 8

theorem Separated.of_singleton {piece ts : List Token} (h : Separated [piece] ts) : ts = piece := by
  cases h
  rfl

/-- A single expression, enclosed. -/
theorem EnclosedRead.single {opening close : TokenKind} {s s' : State} {x : Expr}
    (h : EnclosedRead opening close s [x] s') :
    ∃ us ts, Consumes s ts s' ∧ Enclosed opening close us ts ∧ Derives .comparison us x := by
  rcases h with ⟨items, us, ts, hcons, hts, hus, hitems, hx⟩
  obtain ⟨⟨vs, y⟩, rfl⟩ : ∃ item, items = [item] := by
    rw [← List.length_eq_one_iff, ← List.length_map (f := Prod.snd), ← hx, List.length_singleton]
  obtain rfl := Separated.of_singleton hus
  obtain rfl : x = y := by simpa using hx
  exact ⟨us, ts, hcons, hts, hitems _ (List.mem_singleton_self _)⟩

section Atoms

variable {operand : Precedence → ParseM Expr} {s : State}

/-- The argument of a function, in parentheses. -/
theorem userFunction_sound {token : Token} (h : Sound operand)
    (hnext : nextKind s.tokens = .leftParenthesis) (hlast : s.last.kind = .endOfStream) :
    Ensures anyCause (userFunction operand token) s fun x s' => ∃ us ts y, Consumes s ts s' ∧
      Enclosed .leftParenthesis .rightParenthesis us ts ∧ Derives .comparison us y ∧
      y ≠ .symbol token.text ∧ x = .apply (.function token.text) [y] := by
  unfold userFunction
  apply Ensures.bind
  refine (enclosed_sound .leftParenthesis .rightParenthesis h hnext nofun nofun hlast).mono ?_
  intro _ s₁ hread
  apply Ensures.bind
  refine hread.mono ?_
  intro xs s₂ hread
  apply Ensures.bind
  apply Ensures.spanFrom
  intro span
  split
  · rename_i y
    apply Ensures.ite
    · intro _
      exact Ensures.reject trivial
    · intro hother
      apply Ensures.build fun _ _ => trivial
      intro s₃ hbuilt
      rcases hread.single with ⟨us, ts, hcons, hts, hy⟩
      refine ⟨us, ts, y, ?_, hts, hy, ?_, rfl⟩
      · simpa using hcons.trans hbuilt
      · exact fun heq => hother (symbol?_eq_some.mpr heq)
  · exact Ensures.reject trivial

/-- A name that is not read as that of a function. -/
theorem name_sound {s₁ : State} {token : Token} {x : Expr} (hkind : token.kind = .identifier)
    (hcons : Consumes s [token] s₁) (hx : Names token.text x)
    (huncalled : ∀ next ∈ s₁.tokens.head?, ¬ Calls token next) :
    Ensures anyCause (build x) s₁ (AtomRead s) := by
  apply Ensures.build fun _ _ => trivial
  intro s₂ hbuilt
  have hrest : s₁.tokens = s₂.tokens := hbuilt.tokens
  refine ⟨[token], ?_, .name hkind hx, fun p _ => rank_le_factorial p, ?_⟩
  · simpa using hcons.trans hbuilt
  · intro name hname
    obtain rfl : token = name := by simpa using hname
    rwa [← hrest]

theorem symbol_of_ofSymbol? {name : String} {c : Constant}
    (h : Constant.ofSymbol? name = some c) : c.symbol = name := by
  unfold Constant.ofSymbol? at h
  simpa using List.find?_some h

theorem identifier_sound (h : Sound operand) (hnext : nextKind s.tokens = .identifier)
    (hlast : s.last.kind = .endOfStream) :
    Ensures anyCause (identifier operand) s (AtomRead s) := by
  unfold identifier
  apply Ensures.bind
  apply Ensures.advance (by rw [hnext]; nofun)
  intro token s₁ hkind hcons
  rw [hnext] at hkind
  dsimp only
  split
  · rename_i c hconstant
    obtain htext := symbol_of_ofSymbol? hconstant
    apply name_sound hkind hcons (htext ▸ .constant c)
    rintro next - ⟨-, hcallable, -⟩
    rw [hcallable.notConstant] at hconstant
    cases hconstant
  · rename_i hconstant
    -- The keywords are no names of functions.
    have hkeyword : token.text ∈ ["inf", "undef", "nonreal"] →
        ∀ next ∈ s₁.tokens.head?, ¬ Calls token next := by
      rintro hword next - ⟨-, hcallable, -⟩
      exact hcallable.notWord hword
    split
    · rename_i hword
      exact name_sound hkind hcons (hword ▸ .infinity) (hkeyword (by simp [hword]))
    · rename_i hword
      exact name_sound hkind hcons (hword ▸ .undefined) (hkeyword (by simp [hword]))
    · rename_i hword
      exact name_sound hkind hcons (hword ▸ .nonreal) (hkeyword (by simp [hword]))
    · rename_i hinf hundef hnonreal
      apply Ensures.ite
      · intro _
        exact Ensures.reject trivial
      · intro hshort
        apply Ensures.ite
        · intro _
          exact Ensures.reject trivial
        · intro hsequence
          have hlegal : Legal token.text := by
            refine ⟨hconstant, ?_, ?_, Nat.le_of_not_lt hshort⟩
            · simpa using ⟨hinf, hundef, hnonreal⟩
            · simpa [or_assoc] using hsequence
          apply Ensures.bind
          apply Ensures.current (hcons.ending hlast)
          intro next hnextKind
          apply Ensures.ite
          · intro hcall
            rw [Bool.and_eq_true, decide_eq_true_eq, decide_eq_true_eq] at hcall
            have hparenthesis : nextKind s₁.tokens = .leftParenthesis := hnextKind ▸ hcall.1
            refine (userFunction_sound h hparenthesis (hcons.ending hlast)).mono ?_
            rintro x s₂ ⟨us, ts, y, hargument, hts, hy, hother, rfl⟩
            refine ⟨token :: ts, hcons.trans hargument,
              .call hkind ⟨hlegal, hcall.2⟩ hts hy hother, ?_⟩
            exact (hts.ended nofun).append [token] hts.ne_nil
          · intro hcall
            apply name_sound hkind hcons (.symbol hlegal)
            rintro following hfollowing ⟨-, hcallable, hparenthesis⟩
            apply hcall
            have hfirst : nextKind s₁.tokens = following.kind := by
              rw [nextKind, Option.mem_def.mp hfollowing, Option.map_some, Option.getD_some]
            rw [Bool.and_eq_true, decide_eq_true_eq, decide_eq_true_eq, hnextKind, hfirst]
            exact ⟨hparenthesis, hcallable.notAnswer⟩

/-- An expression in braces or parentheses. -/
theorem enclosedOperand_sound {opening : TokenKind} (close : TokenKind) {first : Token}
    {s₁ : State} (h : Sound operand) (hclose : close ≠ .endOfStream) (hfirst : first.kind = opening)
    (hcons : Consumes s [first] s₁) (hlast : s.last.kind = .endOfStream) :
    Ensures anyCause (operand .store) s₁ fun x s₂ => Ensures anyCause (expect close) s₂ fun _ s' =>
      ∃ us ts, Consumes s ts s' ∧ Enclosed opening close us ts ∧ Derives .comparison us x := by
  refine (sound_store h (hcons.ending hlast)).mono ?_
  rintro x s₂ ⟨us, hus, hx, -⟩
  apply Ensures.expect close (hus.ending (hcons.ending hlast)) hclose
  intro last s₃ hlastKind hclosing
  refine ⟨us, _, ?_, .intro hfirst hlastKind, hx⟩
  simpa using (hcons.trans hus).trans hclosing

/-- The base and the argument of a logarithm, behind its name. -/
theorem logarithmWithSubscript_sound {token : Token} (h : Sound operand)
    (hnext : nextKind s.tokens = .underscore) (hlast : s.last.kind = .endOfStream) :
    Ensures anyCause (logarithmWithSubscript operand token) s fun y s' =>
      ∃ underscore us ts vs ws x base,
      Consumes s (underscore :: ts ++ vs) s' ∧ underscore.kind = .underscore ∧
      Enclosed .leftBrace .rightBrace us ts ∧ Derives .comparison us base ∧
      Enclosed .leftParenthesis .rightParenthesis ws vs ∧ Derives .comparison ws x ∧
      y = .apply .logarithm [x, base] := by
  unfold logarithmWithSubscript
  apply Ensures.bind
  apply Ensures.advance (by rw [hnext]; nofun)
  intro underscore s₁ hunderscore hcons₁
  have hlast₁ := hcons₁.ending hlast
  apply Ensures.bind
  apply Ensures.expect .leftBrace hlast₁ nofun
  intro brace s₂ hbrace hcons₂
  apply Ensures.bind
  refine (enclosedOperand_sound .rightBrace h nofun hbrace hcons₂ hlast₁).mono ?_
  intro base s₃ hread
  apply Ensures.bind
  refine hread.mono ?_
  rintro _ s₄ ⟨us, ts, hcons₄, hts, hbase⟩
  have hlast₄ := hcons₄.ending hlast₁
  apply Ensures.bind
  apply Ensures.current hlast₄
  intro parenthesis hparenthesis
  apply Ensures.ite
  · intro _
    exact Ensures.reject trivial
  · intro hkind
    rw [ne_eq, Decidable.not_not] at hkind
    apply Ensures.bind
    refine (enclosed_sound .leftParenthesis .rightParenthesis h (hparenthesis ▸ hkind) nofun nofun
      hlast₄).mono ?_
    intro _ s₅ hread
    apply Ensures.bind
    refine hread.mono ?_
    intro xs s₆ hread
    split
    · rename_i x
      apply Ensures.build fun _ _ => trivial
      intro s₇ hbuilt
      rcases hread.single with ⟨ws, vs, hcons₆, hvs, hx⟩
      refine ⟨underscore, us, ts, vs, ws, x, base, ?_, hunderscore.trans hnext, hts, hbase, hvs, hx,
        rfl⟩
      simpa using ((hcons₁.trans hcons₄).trans hcons₆).trans hbuilt
    · apply Ensures.bind
      apply Ensures.spanFrom
      intro span
      exact Ensures.reject trivial

theorem reservedCall_sound (h : Sound operand) (hnext : nextKind s.tokens = .reservedFunction)
    (hlast : s.last.kind = .endOfStream) :
    Ensures anyCause (reservedCall operand) s (AtomRead s) := by
  unfold reservedCall
  apply Ensures.bind
  apply Ensures.advance (by rw [hnext]; nofun)
  intro token s₁ hkind hcons
  rw [hnext] at hkind
  have hlast₁ := hcons.ending hlast
  split
  · exact Ensures.reject trivial
  · rename_i entry hentry
    apply Ensures.bind
    apply Ensures.current hlast₁
    intro next hnextKind
    apply Ensures.ite
    · intro hsubscript
      rw [Bool.and_eq_true, decide_eq_true_eq, decide_eq_true_eq] at hsubscript
      have hunderscore : nextKind s₁.tokens = .underscore := hnextKind ▸ hsubscript.2
      refine (logarithmWithSubscript_sound h hunderscore hlast₁).mono ?_
      rintro _ s₂ ⟨underscore, us, ts, vs, ws, x, base, hread, hkind', hts, hbase, hvs, hx, rfl⟩
      refine ⟨token :: (underscore :: ts ++ vs), hcons.trans hread,
        .logarithm hkind hentry hsubscript.1 hkind' hts hbase hvs hx, ?_⟩
      exact (hvs.ended nofun).append (token :: underscore :: ts) hvs.ne_nil
    · intro _
      apply Ensures.ite
      · intro _
        exact Ensures.reject trivial
      · intro hparenthesis
        rw [ne_eq, Decidable.not_not] at hparenthesis
        apply Ensures.bind
        refine (enclosed_sound .leftParenthesis .rightParenthesis h (hnextKind ▸ hparenthesis) nofun
          nofun hlast₁).mono ?_
        intro _ s₂ hread
        apply Ensures.bind
        refine hread.mono ?_
        rintro _ s₃ ⟨items, us, ts, hitemsCons, hts, hus, hitems, rfl⟩
        apply Ensures.bind
        apply Ensures.spanFrom
        intro span
        apply Ensures.ite
        · intro _
          exact Ensures.reject trivial
        · intro hcount
          apply Ensures.ite
          · intro _
            exact Ensures.reject trivial
          · intro hbound
            apply Ensures.build fun _ _ => trivial
            intro s₄ hbuilt
            have hadmits : Admits entry (items.map Prod.snd) := by
              constructor
              · simpa [Decidable.or_iff_not_imp_left] using hcount
              · intro hparametered
                apply bindsLegally_iff.mp
                rw [List.length_map] at hparametered hbound
                simpa [hparametered] using hbound
            refine ⟨token :: ts, ?_, ?_, (hts.ended nofun).append [token] hts.ne_nil⟩
            · simpa using (hcons.trans hitemsCons).trans hbuilt
            · rw [List.length_map]
              exact .reserved hkind hentry hts hus hitems hadmits

/-- Rows of a matrix have been read, and the closing bracket behind them. -/
def RowsRead (columns : Option Nat) (s : State) (xss : List (List Expr)) (s' : State) : Prop :=
  ∃ (rows : List (List (List Token × Expr))) (width : Nat) (ts : List Token) (last : Token),
    last.kind = .rightBracket ∧ Consumes s (ts ++ [last]) s' ∧
    Rows (rows.map (List.map Prod.fst)) ts ∧ 0 < width ∧ (∀ row ∈ rows, row.length = width) ∧
    (∀ row ∈ rows, ∀ item ∈ row, Derives .comparison item.1 item.2) ∧
    xss = rows.map (List.map Prod.snd) ∧ ∀ expected ∈ columns, width = expected

/-- A row before others, perhaps with a comma between them. -/
theorem RowsRead.cons {columns : Option Nat} {row : List (List Token × Expr)} {s₁ s' : State}
    {ts separator : List Token} {xss : List (List Expr)} (hrow : Row (row.map Prod.fst) ts)
    (hseparator : separator = [] ∨ ∃ comma, separator = [comma] ∧ comma.kind = .comma)
    (hcons : Consumes s (ts ++ separator) s₁)
    (hitems : ∀ item ∈ row, Derives .comparison item.1 item.2)
    (hwidth : ∀ expected ∈ columns, row.length = expected)
    (hread : RowsRead (some row.length) s₁ xss s') :
    RowsRead columns s (row.map Prod.snd :: xss) s' := by
  rcases hread with ⟨rows, width, us, last, hlast, hrest, hrows, hpositive, hwidths, hderives, rfl,
    hsame⟩
  obtain rfl : width = row.length := hsame _ rfl
  have hall : Consumes s (ts ++ separator ++ us ++ [last]) s' := by
    simpa using hcons.trans hrest
  refine ⟨row :: rows, row.length, ts ++ separator ++ us, last, hlast, hall, ?_, hpositive,
    List.forall_mem_cons.mpr ⟨rfl, hwidths⟩, List.forall_mem_cons.mpr ⟨hitems, hderives⟩, rfl,
    hwidth⟩
  rcases hseparator with rfl | ⟨comma, rfl, hcomma⟩
  · rw [List.append_nil]
    exact .next hrow hrows
  · rw [List.append_assoc]
    exact .comma hrow hcomma hrows

theorem matrixRows_sound {opening : Token} (h : Sound operand) (columns : Option Nat) (rounds : Nat)
    (hlast : s.last.kind = .endOfStream) :
    Ensures anyCause (matrixRows operand opening columns rounds) s (RowsRead columns s) := by
  induction rounds generalizing s columns with
  | zero => exact Ensures.unexpected
  | succ rounds ih =>
      rw [matrixRows]
      apply Ensures.bind
      apply Ensures.current hlast
      intro next hnext
      apply Ensures.ite
      · intro _
        apply Ensures.ite
        · intro _
          exact Ensures.reject trivial
        · intro _
          exact Ensures.unexpected
      · intro hbracket
        rw [ne_eq, Decidable.not_not] at hbracket
        apply Ensures.bind
        apply Ensures.advance (by rw [← hnext, hbracket]; nofun)
        intro rowOpening s₁ hopening hcons₁
        rw [← hnext, hbracket] at hopening
        have hlast₁ := hcons₁.ending hlast
        apply Ensures.bind
        apply Ensures.current hlast₁
        intro second _
        apply Ensures.ite
        · intro _
          exact Ensures.reject trivial
        · intro _
          apply Ensures.bind
          apply Ensures.get
          apply Ensures.bind
          have hclose : TokenKind.rightBracket ≠ .endOfStream := nofun
          refine (separated_sound h hclose _ hlast₁).mono ?_
          rintro _ s₂ ⟨⟨row, us, rowClosing, hclosing, hitemsCons, hus, hitems, rfl⟩, hne⟩
          have hrow : Row (row.map Prod.fst) (rowOpening :: us ++ [rowClosing]) :=
            ⟨us, hus, .intro hopening hclosing⟩
          have hcons₂ := hcons₁.trans hitemsCons
          have hlast₂ := hcons₂.ending hlast
          have hpositive : 0 < row.length := by simpa [List.length_pos_iff] using hne
          dsimp only
          apply Ensures.ite
          · intro _
            apply Ensures.bind
            apply Ensures.spanFrom
            intro span
            exact Ensures.reject trivial
          · intro hexpected
            rw [ne_eq, Decidable.not_not, List.length_map] at hexpected
            have hwidth : ∀ expected ∈ columns, row.length = expected := by
              rintro expected hcolumns
              rw [hexpected, Option.mem_def.mp hcolumns, Option.getD_some]
            apply Ensures.bind
            apply Ensures.current hlast₂
            intro third hthird
            split
            · rename_i hcomma
              apply Ensures.bind
              apply Ensures.advance (by rw [← hthird, hcomma]; nofun)
              intro comma s₃ hcommaKind hcons₃
              apply Ensures.bind
              refine (ih (some _) ((hcons₂.trans hcons₃).ending hlast)).mono ?_
              intro xss s₄ hread
              apply Ensures.pure
              refine .cons hrow (.inr ⟨comma, rfl, ?_⟩) (hcons₂.trans hcons₃) hitems hwidth ?_
              · rw [hcommaKind, ← hthird, hcomma]
              · rwa [List.length_map, ← hexpected] at hread
            · rename_i hbracket
              apply Ensures.bind
              apply Ensures.advance (by rw [← hthird, hbracket]; nofun)
              intro last s₃ hlastKind hcons₃
              apply Ensures.pure
              refine ⟨[row], row.length, _, last, ?_, hcons₂.trans hcons₃, .one hrow, hpositive,
                by simp, by simpa using hitems, rfl, hwidth⟩
              rw [hlastKind, ← hthird, hbracket]
            · apply Ensures.bind
              refine (ih (some _) hlast₂).mono ?_
              intro xss s₃ hread
              apply Ensures.pure
              refine .cons hrow (.inl rfl) (by simpa using hcons₂) hitems hwidth ?_
              rwa [List.length_map, ← hexpected] at hread

theorem matrix_sound (h : Sound operand) (hnext : nextKind s.tokens = .leftBracket)
    (hlast : s.last.kind = .endOfStream) : Ensures anyCause (matrix operand) s (AtomRead s) := by
  unfold matrix
  apply Ensures.bind
  apply Ensures.advance (by rw [hnext]; nofun)
  intro opening s₁ hopening hcons
  apply Ensures.bind
  apply Ensures.get
  apply Ensures.bind
  refine (matrixRows_sound h none _ (hcons.ending hlast)).mono ?_
  rintro _ s₂ ⟨rows, width, us, last, hlastKind, hrowsCons, hrows, hpositive, hwidths, hitems, rfl,
    -⟩
  apply Ensures.build fun _ _ => trivial
  intro s₃ hbuilt
  have hts : Enclosed .leftBracket .rightBracket us (opening :: us ++ [last]) :=
    .intro (hopening.trans hnext) hlastKind
  have hcolumns : ((rows.map (List.map Prod.snd)).headD []).length = width := by
    cases rows with
    | nil => cases hrows
    | cons row rows => simpa using hwidths row (List.mem_cons_self ..)
  refine ⟨_, by simpa using (hcons.trans hrowsCons).trans hbuilt, ?_, hts.ended nofun⟩
  rw [hcolumns, List.length_map, ← List.map_flatten]
  exact .matrix hts hrows hpositive hwidths hitems

/-- What is read first: an atom, or a sign and its operand. -/
theorem leading_sound {stop : Precedence} (h : Sound operand)
    (hstop : stop.rank ≤ Precedence.implicitTimes.rank) (hlast : s.last.kind = .endOfStream) :
    Ensures anyCause (leading operand stop) s fun x s' =>
      ∃ q, (operandPhrase stop).includes q = true ∧ ReadAs q q.reach s x s' := by
  have hatom : ∀ {step : ParseM Expr}, Ensures anyCause step s (AtomRead s) →
      Ensures anyCause step s fun x s' =>
      ∃ q, (operandPhrase stop).includes q = true ∧ ReadAs q q.reach s x s' := by
    intro step hstep
    refine hstep.mono fun x s' hread => ⟨.atom, ?_, hread⟩
    cases stop <;> decide
  unfold leading
  apply Ensures.bind
  apply Ensures.current hlast
  intro token htoken
  split <;> rename_i hkind <;> rw [htoken] at hkind
  · apply Ensures.bind
    apply Ensures.advance (by rw [hkind]; nofun)
    intro sign s₁ hsign hcons
    rcases signed_operand hstop with ⟨hrank, hincludes, hsigned, hreach⟩
    apply Ensures.bind
    refine (h (stop.max .minus) s₁ hrank (hcons.ending hlast)).mono ?_
    rintro x s₂ ⟨ts, hts, hx, hended⟩
    apply Ensures.build fun _ _ => trivial
    intro s₃ hbuilt
    have hrest : s₂.tokens = s₃.tokens := hbuilt.tokens
    refine ⟨operandPhrase (stop.max .minus), hincludes, sign :: ts, ?_,
      .opposite hsigned (hsign.trans hkind) hx, ?_⟩
    · simpa using (hcons.trans hts).trans hbuilt
    · rw [hreach, ← hrest]
      exact hended.append [sign] hx.ne_nil
  · apply hatom
    apply Ensures.bind
    apply Ensures.advance (by rw [hkind]; nofun)
    intro number s₁ hnumber hcons
    apply Ensures.build fun _ _ => trivial
    intro s₂ hbuilt
    have hnumberKind : number.kind = .number := hnumber.trans hkind
    refine ⟨[number], by simpa using hcons.trans hbuilt, .number hnumberKind, ?_⟩
    exact .of_last [] (by rw [hnumberKind]; nofun)
  · exact hatom (identifier_sound h hkind hlast)
  · exact hatom (reservedCall_sound h hkind hlast)
  · apply hatom
    apply Ensures.bind
    apply Ensures.advance (by rw [hkind]; nofun)
    intro opening s₁ hopening hcons
    apply Ensures.bind
    refine (enclosedOperand_sound .rightParenthesis h nofun (hopening.trans hkind) hcons
      hlast).mono ?_
    intro x s₂ hread
    apply Ensures.bind
    refine hread.mono ?_
    rintro _ s₃ ⟨us, ts, hall, hts, hx⟩
    apply Ensures.build fun _ _ => trivial
    intro s₄ hbuilt
    exact ⟨ts, by simpa using hall.trans hbuilt, .parenthesis hts hx, hts.ended nofun⟩
  · exact hatom (matrix_sound h hkind hlast)
  · apply hatom
    apply Ensures.bind
    refine (enclosed_sound .leftBrace .rightBrace h hkind nofun nofun hlast).mono ?_
    intro _ s₁ hread
    apply Ensures.bind
    refine hread.mono ?_
    rintro _ s₂ ⟨items, us, ts, hall, hts, hus, hitems, rfl⟩
    apply Ensures.build fun _ _ => trivial
    intro s₃ hbuilt
    exact ⟨ts, by simpa using hall.trans hbuilt, .list hts hus hitems, hts.ended nofun⟩
  · exact Ensures.unexpected

end Atoms

/-! ## Operators -/

section Operators

variable {operand : Precedence → ParseM Expr} {s s₀ : State} {x : Expr} {f : Operator}
  {p stop : Precedence} {kind : TokenKind} {ts : List Token} {post : Expr → State → Prop}

theorem infixOperator_sound (h : Sound operand) (hjoint : Infix (nextKind s.tokens) f p stop)
    (hlast : s.last.kind = .endOfStream) :
    Ensures anyCause (infixOperator operand x f stop) s fun z s' =>
      ∃ sign us y, Consumes s (sign :: us) s' ∧
      sign.kind = nextKind s.tokens ∧ Derives (operandPhrase stop) us y ∧
      Ended stop.rank us s'.tokens ∧ z = .apply f [x, y] := by
  unfold infixOperator
  apply Ensures.bind
  apply Ensures.advance (by intro hend; rw [hend] at hjoint; cases hjoint)
  intro sign s₁ hsign hcons
  apply Ensures.bind
  refine (h stop s₁ hjoint.reach.2 (hcons.ending hlast)).mono ?_
  rintro y s₂ ⟨us, hus, hy, hended⟩
  apply Ensures.build fun _ _ => trivial
  intro s₃ hbuilt
  have hrest : s₂.tokens = s₃.tokens := hbuilt.tokens
  exact ⟨sign, us, y, by simpa using (hcons.trans hus).trans hbuilt, hsign, hy, hrest ▸ hended, rfl⟩

/-- What has been read becomes the left operand of the operator behind it. -/
theorem operation_sound (h : Sound operand) (hp : Precedence.ofToken? (nextKind s.tokens) = some p)
    (hread : ReadAs (leftPhrase p) p.rank s₀ x s) (hlast : s.last.kind = .endOfStream) :
    Ensures anyCause (operation operand x) s fun y s' => s'.tokens.length < s.tokens.length ∧
      ReadAs (wholePhrase p) (wholePhrase p).reach s₀ y s' := by
  rcases hread with ⟨ts, hts, hx, hended⟩
  have hshorter : ∀ {us s'}, Consumes s us s' → us ≠ [] →
      s'.tokens.length < s.tokens.length := by
    intro us s' hus hne
    have hpositive := List.length_pos_iff.mpr hne
    rw [hus.tokens, List.length_append]
    omega
  rcases ofToken?_cases hp with ⟨f, stop, hjoint⟩ | ⟨hbang, rfl⟩ | ⟨hoperand, rfl⟩
  · by_cases hchain : p = .comparison → x.kind ≠ .comparison
    · rw [Ensures, operation_between hlast hjoint hchain]
      refine (infixOperator_sound h hjoint hlast).mono ?_
      rintro _ s' ⟨sign, us, y, hus, hsign, hy, hend, rfl⟩
      rcases hjoint.joins hx hchain with ⟨left, hjoins, hleft⟩
      refine ⟨hshorter hus (by simp), ts ++ sign :: us, hts.trans hus,
        .operation hjoins hsign hleft hy, ?_⟩
      rw [hjoint.reach.1, ← List.singleton_append, ← List.append_assoc]
      exact hend.append _ hy.ne_nil
    · rw [Classical.not_imp, Decidable.not_not] at hchain
      rcases hchain with ⟨rfl, hchain⟩
      cases hkind : nextKind s.tokens with
      | comparison relation => exact operation_chained hlast hkind hchain
      | _ => rw [hkind] at hp; cases hp
  · rw [Ensures, operation_bang hlast hbang]
    apply Ensures.bind
    apply Ensures.advance (by rw [hbang]; decide)
    intro sign s₁ hsign hcons
    apply Ensures.build fun _ _ => trivial
    intro s₂ hbuilt
    have hbangKind : sign.kind = .bang := hsign.trans hbang
    have hall : Consumes s [sign] s₂ := by simpa using hcons.trans hbuilt
    exact ⟨hshorter hall (by simp), ts ++ [sign], hts.trans hall, .factorial hbangKind hx,
      .of_last ts (by rw [hbangKind]; decide)⟩
  · rw [Ensures, operation_factor hlast hoperand]
    apply Ensures.ite
    · intro _
      exact Ensures.unexpected
    · intro hmeet
      apply Ensures.bind
      refine (h .implicitTimes s (Nat.le_refl _) hlast).mono ?_
      rintro y s₁ ⟨us, hus, hy, hend⟩
      apply Ensures.build fun _ _ => trivial
      intro s₂ hbuilt
      have hrest : s₁.tokens = s₂.tokens := hbuilt.tokens
      have hall : Consumes s us s₂ := by simpa using hus.trans hbuilt
      obtain ⟨first, hfirst⟩ : ∃ first, first ∈ us.head? :=
        Option.ne_none_iff_exists'.mp (by simpa using hy.ne_nil)
      have hhead : first ∈ s.tokens.head? := by
        rw [hus.tokens, List.head?_append, Option.mem_def.mp hfirst]
        rfl
      have hkind := head_kind hhead
      obtain ⟨last, hlastToken⟩ : ∃ last, last ∈ ts.getLast? :=
        Option.ne_none_iff_exists'.mp (by simpa using hx.ne_nil)
      have hprevious : s.previous = last.kind := by
        rw [hts.previous, Option.mem_def.mp hlastToken]
        rfl
      have hadjoins : Adjoins ts us := by
        refine ⟨last, hlastToken, first, hfirst, ?_, ?_,
          hended.uncalled last hlastToken first hhead⟩
        · rw [hkind]
          exact hoperand
        · rintro ⟨hlastNumber, hfirstNumber⟩
          exact hmeet ⟨by rw [← hkind, hfirstNumber], by rw [hprevious, hlastNumber]⟩
      refine ⟨hshorter hall hy.ne_nil, ts ++ us, hts.trans hall,
        .adjacency hadjoins hx (hy.power_of_exponent ?_), ?_⟩
      · intro token htoken hminus
        obtain rfl : first = token := Option.mem_unique hfirst htoken
        rw [← hkind, hminus] at hoperand
        cases hoperand
      · exact (hrest ▸ hend).append ts hy.ne_nil

/-- Operators are read as long as they bind more strongly than the one before the operand. What has
been read by then can always be the left operand of the next one. -/
theorem operations_sound (h : Sound operand) (rounds : Nat)
    (hread : ∃ q, (operandPhrase stop).includes q = true ∧ ReadAs q q.reach s₀ x s)
    (hrounds : s.tokens.length < rounds) (hlast : s₀.last.kind = .endOfStream) :
    Ensures anyCause (operations operand stop rounds x) s
      (ReadAs (operandPhrase stop) stop.rank s₀) := by
  induction rounds generalizing s x with
  | zero => omega
  | succ rounds ih =>
      rcases hread with ⟨q, hq, ts, hts, hx, hended⟩
      have hlast' := hts.ending hlast
      have hstops : (∀ p, Precedence.ofToken? (nextKind s.tokens) = some p → p.rank ≤ stop.rank) →
          ReadAs (operandPhrase stop) stop.rank s₀ x s := by
        intro hweaker
        exact ⟨ts, hts, hx.of_includes hq, hweaker, hended.uncalled⟩
      rw [operations]
      apply Ensures.bind
      apply Ensures.current hlast'
      intro token htoken
      rw [htoken]
      cases hp : Precedence.ofToken? (nextKind s.tokens) with
      | none => exact Ensures.pure (hstops fun p hsome => by rw [hp] at hsome; cases hsome)
      | some p =>
          dsimp only
          apply Ensures.ite
          · intro hrank
            apply Ensures.pure
            apply hstops
            intro p' hp'
            rw [hp] at hp'
            cases hp'
            exact hrank
          · intro hrank
            have hstop := Nat.lt_of_not_le hrank
            have hincludes := left_includes hstop hq (hended.weaker p hp)
            have hleft : ReadAs (leftPhrase p) p.rank s₀ x s := by
              refine ⟨ts, hts, hx.of_includes hincludes, ?_, hended.uncalled⟩
              intro p' hp'
              rw [hp] at hp'
              cases hp'
              exact Nat.le_refl _
            apply Ensures.bind
            refine (operation_sound h hp hleft hlast').mono ?_
            rintro y s' ⟨hshorter, hnext⟩
            exact ih ⟨_, whole_included hstop, hnext⟩ (by omega)

/-- What is read as an operand is one, however deep operands may be nested. -/
theorem expression_sound (nesting : Nat) : Sound (expression nesting) := by
  induction nesting with
  | zero =>
      intro stop s _ hlast
      rw [expression]
      apply Ensures.bind
      apply Ensures.current hlast
      intro token _
      exact Ensures.reject trivial
  | succ nesting ih =>
      intro stop s hstop hlast
      rw [expression]
      apply Ensures.bind
      refine (leading_sound ih hstop hlast).mono ?_
      intro x s₁ hread
      apply Ensures.bind
      apply Ensures.get
      exact operations_sound ih _ hread (Nat.lt_succ_self _) hlast

end Operators

/-! ## Whole texts -/

section Statements

variable {s : State}

theorem storeTarget_sound (hlast : s.last.kind = .endOfStream) :
    Ensures anyCause storeTarget s fun x s' => ∃ ts, Consumes s ts s' ∧ Target ts x := by
  unfold storeTarget
  apply Ensures.bind
  apply Ensures.current_next
  have hnext := kind_next hlast
  generalize htoken : s.tokens.headD s.last = token at hnext
  apply Ensures.ite
  · intro _
    exact Ensures.reject trivial
  · intro hkind
    rw [ne_eq, Decidable.not_not] at hkind
    apply Ensures.bind
    apply Ensures.advance_next (by rw [← hnext, hkind]; nofun)
    intro s₁ hcons₁
    rw [htoken] at hcons₁
    have hlast₁ := hcons₁.ending hlast
    dsimp only
    apply Ensures.ite
    · intro _
      exact Ensures.reject trivial
    · intro hfree
      apply Ensures.ite
      · intro _
        exact Ensures.reject trivial
      · intro hshort
        have hname : Assignable token := ⟨hkind, by simpa using hfree, Nat.le_of_not_lt hshort⟩
        apply Ensures.bind
        apply Ensures.current hlast₁
        intro opening hopening
        apply Ensures.ite
        · intro _
          apply Ensures.build fun _ _ => trivial
          intro s₂ hbuilt
          exact ⟨[token], by simpa using hcons₁.trans hbuilt, .symbol hname⟩
        · intro hparenthesis
          rw [ne_eq, Decidable.not_not, hopening] at hparenthesis
          apply Ensures.bind
          apply Ensures.advance (by rw [hparenthesis]; nofun)
          intro first s₂ hfirst hcons₂
          have hlast₂ := hcons₂.ending hlast₁
          apply Ensures.bind
          apply Ensures.current_next
          have hparameter := kind_next hlast₂
          generalize hparameterToken : s₂.tokens.headD s₂.last = parameter at hparameter
          apply Ensures.ite
          · intro hlegal
            rcases isParameter_iff.mp hlegal with ⟨hassignable, hother⟩
            apply Ensures.bind
            apply Ensures.advance_next (by rw [← hparameter, hassignable.kind]; nofun)
            intro s₃ hcons₃
            rw [hparameterToken] at hcons₃
            apply Ensures.bind
            apply Ensures.expect .rightParenthesis (hcons₃.ending hlast₂) nofun
            intro closing s₄ hclosing hcons₄
            apply Ensures.bind
            apply Ensures.build fun _ _ => trivial
            intro s₅ hbuilt₅
            apply Ensures.build fun _ _ => trivial
            intro s₆ hbuilt₆
            refine ⟨token :: [first, parameter, closing], ?_, .function hname hassignable hother
              (.intro (hfirst.trans hparenthesis) hclosing)⟩
            simpa using
              ((((hcons₁.trans hcons₂).trans hcons₃).trans hcons₄).trans hbuilt₅).trans hbuilt₆
          · intro _
            exact Ensures.reject trivial

theorem statement_sound (hlast : s.last.kind = .endOfStream) :
    Ensures anyCause statement s fun x s' => ∃ ts, Consumes s ts s' ∧ Statement ts x := by
  unfold statement
  apply Ensures.bind
  refine (sound_store (expression_sound maxNesting) hlast).mono ?_
  rintro x s₁ ⟨ts, hts, hx, -⟩
  have hlast₁ := hts.ending hlast
  apply Ensures.bind
  apply Ensures.current hlast₁
  intro token htoken
  apply Ensures.ite
  · intro hstore
    rw [htoken] at hstore
    apply Ensures.bind
    apply Ensures.advance (by rw [hstore]; nofun)
    intro arrow s₂ harrow hcons
    apply Ensures.ite
    · intro _
      exact Ensures.reject trivial
    · intro hkind
      apply Ensures.bind
      refine (storeTarget_sound (hcons.ending hlast₁)).mono ?_
      rintro target s₃ ⟨us, hus, htarget⟩
      apply Ensures.build fun _ _ => trivial
      intro s₄ hbuilt
      refine ⟨ts ++ arrow :: us, ?_, .assignment hx hkind (harrow.trans hstore) htarget⟩
      simpa using ((hts.trans hcons).trans hus).trans hbuilt
  · intro _
    exact Ensures.pure ⟨ts, hts, .value hx⟩

/-- A text has been read to its end, and the tree that was read is not too deep. -/
theorem whole_sound {textEnd : Nat} (hlast : s.last.kind = .endOfStream)
    (hstream : ∀ token ∈ s.tokens, token.kind ≠ .endOfStream) :
    Ensures anyCause (whole textEnd) s fun x _ =>
      Statement s.tokens x ∧ x.depth ≤ maxTreeDepth := by
  unfold whole
  apply Ensures.bind
  refine (statement_sound hlast).mono ?_
  rintro x s₁ ⟨ts, hts, hx⟩
  apply Ensures.bind
  apply Ensures.current (hts.ending hlast)
  intro token htoken
  apply Ensures.ite
  · intro _
    exact Ensures.unexpected
  · intro hend
    apply Ensures.ite
    · intro _
      exact Ensures.reject trivial
    · intro hdepth
      rw [ne_eq, Decidable.not_not, htoken] at hend
      have hrest : s₁.tokens = [] := by
        cases hs : s₁.tokens with
        | nil => rfl
        | cons first rest =>
            rw [hs] at hend
            exact absurd hend (hstream first (by rw [hts.tokens, hs]; simp))
      have htokens := hts.tokens
      rw [hrest, List.append_nil] at htokens
      exact Ensures.pure ⟨htokens ▸ hx, Nat.le_of_not_lt hdepth⟩

end Statements

end Grammar

/-- Every text that is read is a statement of the grammar, and its tree is not too deep. -/
theorem Expr.statement_of_parse {free : Nat} {text : String} {t : Expr}
    (h : Expr.parse free text = .ok t) :
    Grammar.Statement (Token.scan text) t ∧ t.depth ≤ Parser.maxTreeDepth := by
  let s : Parser.State := ⟨Token.scan text, Token.atEnd text, .endOfStream, 0, free⟩
  have hsound : Ensures anyCause (Parser.whole text.utf8ByteSize) s
      fun x _ => Grammar.Statement s.tokens x ∧ x.depth ≤ Parser.maxTreeDepth :=
    Grammar.whole_sound rfl fun _ htoken => Grammar.scan_kind_ne htoken
  rw [Expr.parse] at h
  cases hwhole : Parser.whole text.utf8ByteSize s with
  | error e =>
      rw [hwhole] at h
      cases h
  | ok result =>
      rw [hwhole] at h
      cases h
      exact hsound.of_ok hwhole

end PocketAlgebra
