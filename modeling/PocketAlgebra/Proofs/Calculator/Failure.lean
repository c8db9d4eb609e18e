import PocketAlgebra.Calculator.CommandLine

/-!
# Lines that fail

A line that fails leaves a session as it was, with one exception: an assignment defines its name
before the result is copied as the answer, and stays in force where only that second copy does not
fit into memory.
-/

namespace PocketAlgebra

/-! ## Copies that fit -/

namespace Charge

theorem copyAllInto_of_le {free : Nat} {xs : List Expr}
    (hxs : ∀ x ∈ xs, ∀ {free : Nat}, x.charge ≤ free →
      copyInto free x = .ok (free - x.charge))
    (h : Expr.chargeAll xs ≤ free) : copyAllInto free xs = .ok (free - Expr.chargeAll xs) := by
  induction xs generalizing free with
  | nil => rfl
  | cons x xs ih =>
      rw [Expr.chargeAll] at h
      have hfirst : copyInto free x = .ok (free - x.charge) :=
        hxs x List.mem_cons_self (by omega)
      have hrest : Expr.chargeAll xs ≤ free - x.charge := by omega
      rw [copyAllInto, hfirst, Expr.chargeAll, Nat.sub_add_eq]
      exact ih (fun y hy => hxs y (List.mem_cons_of_mem _ hy)) hrest

/-- A copy fits where there is room for what the tree is charged. -/
theorem copyInto_of_le : ∀ (x : Expr) {free : Nat}, x.charge ≤ free →
    copyInto free x = .ok (free - x.charge)
  | .apply f xs, free, h => by
      rw [Expr.charge_eq, Expr.operands] at h
      have hoperands : copyAllInto free xs = .ok (free - Expr.chargeAll xs) :=
        copyAllInto_of_le (fun x _ => copyInto_of_le x) (by omega)
      have hroom : ¬ free - Expr.chargeAll xs < (Expr.apply f xs).nodeCharge := by omega
      rw [copyInto, hoperands, Expr.charge_eq, Expr.operands, Nat.sub_add_eq]
      exact if_neg hroom
  | .rational _, _, h | .decimal _, _, h | .infinity _, _, h | .constant _, _, h
  | .symbol _, _, h => if_neg (Nat.not_lt.mpr h)
termination_by x => x.size
decreasing_by exact Expr.size_lt_of_mem ‹_›

end Charge

/-! ## What definitions keep -/

namespace Definitions

variable {ds ds' : Definitions} {name other : String} {d : Definition} {free : Nat}
  {error : StoreError}

theorem get?_insert_self (ds : Definitions) (name : String) (d : Definition) :
    (ds.insert name d).get? name = some d :=
  List.lookup_cons_self

theorem lookup_filter {entries : List (String × Definition)} (h : other ≠ name) :
    (entries.filter fun entry => entry.1 ≠ name).lookup other = entries.lookup other := by
  induction entries with
  | nil => rfl
  | cons entry entries ih =>
      by_cases hentry : entry.1 = name
      · have hother : (other == entry.1) = false := by simpa [hentry] using h
        rw [List.filter_cons_of_neg (by simpa using hentry), ih, List.lookup_cons, hother]
      · rw [List.filter_cons_of_pos (by simpa using hentry), List.lookup_cons, List.lookup_cons, ih]

theorem get?_insert_of_ne (ds : Definitions) (d : Definition) (h : other ≠ name) :
    (ds.insert name d).get? other = ds.get? other := by
  have hother : (other == name) = false := by simpa using h
  rw [get?, insert, List.lookup_cons, hother]
  exact lookup_filter h

theorem mem_names_insert : other ∈ (ds.insert name d).names ↔ other = name ∨ other ∈ ds.names := by
  by_cases h : other = name <;> simp [names, insert, erase, h]

theorem eq_insert_of_define (h : ds.define free name d = .ok ds') : ds' = ds.insert name d := by
  rw [define] at h
  split at h
  · exact (Except.ok.inj h).symm
  · nomatch h

/-- A name is not defined only where the copy of its definition does not fit. -/
theorem lt_charge_of_define (h : ds.define free name d = .error error) :
    (∃ shortage, error = .allocation shortage) ∧ free < d.body.charge := by
  rw [define] at h
  split at h
  case h_1 => nomatch h
  case h_2 shortage hcopy =>
    refine ⟨⟨shortage, (Except.error.inj h).symm⟩, Nat.lt_of_not_le fun hroom => ?_⟩
    rw [Charge.copyInto_of_le _ hroom] at hcopy
    nomatch hcopy

theorem store_ok {line : Expr} {result : String × Definitions}
    (h : ds.store free line = .ok result) :
    ∃ value target rest, line = .apply .store (value :: target :: rest) ∧
      ((∃ name, target = .symbol name ∧ result = (name, ds.insert name (.value value))) ∨
        ∃ name parameter others, target = .apply (.function name) (.symbol parameter :: others) ∧
          result = (name, ds.insert name (.function parameter value))) := by
  have hmap {name : String} {d : Definition}
      (h : (ds.define free name d).map (name, ·) = .ok result) :
      result = (name, ds.insert name d) := by
    cases hdefine : ds.define free name d with
    | error e =>
        rw [hdefine] at h
        nomatch h
    | ok ds' =>
        rw [hdefine] at h
        rw [← Except.ok.inj h, ← eq_insert_of_define hdefine]
  rw [store.eq_def] at h
  split at h
  case h_2 => nomatch h
  case h_1 value target rest =>
    refine ⟨value, target, rest, rfl, ?_⟩
    dsimp only at h
    split at h
    case isTrue => nomatch h
    case isFalse hlegal =>
      split at h
      case h_1 _ name => exact .inl ⟨name, rfl, hmap h⟩
      case h_2 _ name parameter others => exact .inr ⟨name, parameter, others, rfl, hmap h⟩
      case h_3 => nomatch h

end Definitions

/-! ## What a line does -/

namespace Session

variable {s s' : Session} {text : String} {line reduced : Expr} {taken : Nat} {name : String}

/-- The definition that an assignment makes for a name: a value is reduced, the body of a function
is as it is written. -/
inductive Assigns (reduced : Expr) : Expr → String → Definition → Prop where
  | value (x : Expr) (name : String) (rest : List Expr) :
      Assigns reduced (.apply .store (x :: .symbol name :: rest)) name (.value reduced)
  | function (body : Expr) (name parameter : String) (others rest : List Expr) :
      Assigns reduced
        (.apply .store (body :: .apply (.function name) (.symbol parameter :: others) :: rest)) name
        (.function parameter body)

/-- A session with one more definition. -/
def defining (s : Session) (name : String) (d : Definition) : Session :=
  { s with definitions := s.definitions.insert name d }

@[simp]
theorem preferences_defining (s : Session) (name : String) (d : Definition) :
    (s.defining name d).preferences = s.preferences :=
  rfl

theorem eq_defining_of_define {value : Expr} (h : s.define taken name value = .ok s') :
    s' = s.defining name (.value value) := by
  rw [define] at h
  cases hdefine : s.definitions.define (s.free - taken) name (.value value) with
  | error e =>
      rw [hdefine] at h
      nomatch h
  | ok ds =>
      rw [hdefine] at h
      rw [← Except.ok.inj h, defining, ← Definitions.eq_insert_of_define hdefine]

theorem store_ok (h : s.store taken line reduced = .ok s') :
    s' = s ∨ ∃ name d, Assigns reduced line name d ∧ s' = s.defining name d := by
  rw [store.eq_def] at h
  split at h
  case h_1 x name rest =>
    exact .inr ⟨name, .value reduced, .value x name rest, eq_defining_of_define h⟩
  case h_2 xs hsymbol =>
    cases hstore : s.definitions.store (s.free - taken) (.apply .store xs) with
    | error e =>
        rw [hstore] at h
        nomatch h
    | ok result =>
        rw [hstore] at h
        rcases Definitions.store_ok hstore with ⟨value, target, rest, hline, htarget⟩
        cases hline
        rcases htarget with ⟨name, rfl, -⟩ | ⟨name, parameter, others, rfl, rfl⟩
        · exact absurd rfl (hsymbol value name rest)
        · exact .inr ⟨name, .function parameter value, .function .., (Except.ok.inj h).symm⟩
  case h_3 => exact .inl (Except.ok.inj h).symm

/-- A result is not kept where its copy as the answer does not fit beside the line, the result
itself and the definitions. -/
theorem lt_charge_of_define {name : String} {value : Expr} {error : StoreError}
    (h : s.define taken name value = .error error) :
    (∃ shortage, error = .allocation shortage) ∧
      s.preferences.poolCapacity < s.definitions.charge + taken + value.charge := by
  rw [define] at h
  cases hdefine : s.definitions.define (s.free - taken) name (.value value) with
  | ok ds =>
      rw [hdefine] at h
      nomatch h
  | error e =>
      rw [hdefine] at h
      cases h
      rcases Definitions.lt_charge_of_define hdefine with ⟨hcause, hroom⟩
      rw [free, Definition.body] at hroom
      exact ⟨hcause, by omega⟩

/-- Where a result is not kept, the session is as it was or has the definition of an assignment. -/
theorem keep_error {error : StoreError} (h : s.keep line reduced = (s', .error error)) :
    s' = s ∨ ∃ name d, Assigns reduced line name d ∧ s' = s.defining name d ∧
      (∃ shortage, error = .allocation shortage) ∧
      s.preferences.poolCapacity < s'.definitions.charge + line.charge + 2 * reduced.charge := by
  rw [keep] at h
  split at h
  case h_1 => exact .inl (congrArg Prod.fst h).symm
  case h_2 stored hstore =>
    split at h
    case h_2 => nomatch h
    case h_1 hdefine =>
      cases h
      rcases store_ok hstore with rfl | ⟨name, d, hassigns, rfl⟩
      · exact .inl rfl
      · rcases lt_charge_of_define hdefine with ⟨hcause, hroom⟩
        refine .inr ⟨name, d, hassigns, rfl, hcause, ?_⟩
        rw [preferences_defining] at hroom
        omega

/-- Where a line fails, the session is as it was or has the definition of an assignment, and then it
is a copy of the result that did not fit. -/
theorem failed_cases {error : LineError} (h : s.evaluate text = (s', .failed error)) :
    s' = s ∨
      ∃ line reduced name d,
        Expr.parse s.free (trimBlanks text) = .ok line ∧
        line.reduce (s.reductionContext line) {} = .ok reduced ∧
        Assigns reduced line name d ∧ s' = s.defining name d ∧
        (∃ shortage, error = .storing (.allocation shortage)) ∧
        s.preferences.poolCapacity <
          s'.definitions.charge + line.charge + 2 * reduced.charge := by
  rw [evaluate] at h
  dsimp only at h
  split at h
  case isTrue => nomatch h
  case isFalse =>
    split at h
    case h_1 => exact .inl (congrArg Prod.fst h).symm
    case h_2 line hparse =>
      split at h
      case h_1 => exact .inl (congrArg Prod.fst h).symm
      case h_2 reduced hreduce =>
        split at h
        case h_1 => nomatch h
        case h_2 hkeep =>
          cases h
          rcases keep_error hkeep with rfl | ⟨name, d, hassigns, rfl, ⟨shortage, rfl⟩, hroom⟩
          · exact .inl rfl
          · exact .inr ⟨line, reduced, name, d, hparse, hreduce, hassigns, rfl, ⟨shortage, rfl⟩,
              hroom⟩

/-- A line that fails leaves the session as it was, unless it is an assignment that made its
definition before there was no room left for a copy of the result as the answer. Then it has changed
what its name stands for, and no other name. -/
theorem evaluate_failed {error : LineError} (h : s.evaluate text = (s', .failed error)) :
    s' = s ∨
      ∃ line reduced name d,
        Expr.parse s.free (trimBlanks text) = .ok line ∧
        line.reduce (s.reductionContext line) {} = .ok reduced ∧
        Assigns reduced line name d ∧ s' = s.defining name d ∧
        (∃ shortage, error = .storing (.allocation shortage)) ∧
        s.preferences.poolCapacity <
          s'.definitions.charge + line.charge + 2 * reduced.charge ∧
        s'.definitions.get? name = some d ∧
        ∀ other ≠ name, s'.definitions.get? other = s.definitions.get? other ∧
          (other ∈ s'.definitions.names ↔ other ∈ s.definitions.names) := by
  rcases failed_cases h with
    hsame | ⟨line, reduced, name, d, hparse, hreduce, hassigns, rfl, hcause, hroom⟩
  · exact .inl hsame
  · refine .inr ⟨line, reduced, name, d, hparse, hreduce, hassigns, rfl, hcause, hroom,
      Definitions.get?_insert_self _ name d, fun other hother => ?_⟩
    refine ⟨Definitions.get?_insert_of_ne _ d hother, ?_⟩
    rw [defining, Definitions.mem_names_insert, or_iff_right hother]

/-- A session of 1024 bytes in which `x` is defined as zero. -/
def smallSession : Session :=
  (evaluate { preferences := { poolCapacity := 1024 } } "0→x").1

/-- A line that fails. -/
def listOfDigits : String :=
  "{1,2,3,4,5,6,7,8,9,0}→x"

theorem exists_failed (h : CommandLine.fails (s.evaluate text).2 = true) :
    ∃ error, s.evaluate text = ((s.evaluate text).1, .failed error) := by
  rw [CommandLine.fails.eq_def] at h
  split at h
  case h_1 => nomatch h
  case h_2 result error _ hresult => exact ⟨error, Prod.ext rfl hresult⟩
  case h_3 => nomatch h

theorem evaluate_failed_listOfDigits : ∃ d shortage,
    smallSession.evaluate listOfDigits =
      (smallSession.defining "x" d, .failed (.storing (.allocation shortage))) := by
  have hfails : CommandLine.fails (smallSession.evaluate listOfDigits).2 = true := by
    decide +kernel
  have hchanged : ((smallSession.evaluate listOfDigits).1.definitions.get? "x").map
      (·.body.text) ≠ (smallSession.definitions.get? "x").map (·.body.text) := by
    decide +kernel
  rcases exists_failed hfails with ⟨error, h⟩
  rcases evaluate_failed h with
    hsame | ⟨line, reduced, name, d, -, -, -, hdefining, ⟨shortage, rfl⟩, -, -, hothers⟩
  · exact absurd (by rw [hsame]) hchanged
  · have hname : name = "x" := Decidable.byContradiction fun hne =>
      hchanged (by rw [(hothers "x" (Ne.symm hne)).1])
    subst hname
    exact ⟨d, shortage, by rw [h, hdefining]⟩

/-- The list becomes the value of `x`, while the answer is still zero. -/
theorem evaluate_keepsAssignment :
    CommandLine.fails (smallSession.evaluate listOfDigits).2 = true ∧
      (smallSession.definitions.value? "x").map Expr.text = some "0" ∧
      ((smallSession.evaluate listOfDigits).1.definitions.value? "x").map Expr.text =
        some "\x7b1,2,3,4,5,6,7,8,9,0\x7d" ∧
      ((smallSession.evaluate listOfDigits).1.definitions.value? "ans").map Expr.text =
        some "0" := by
  decide +kernel

/-! ## Lines one after the other -/

/-- A session after some lines. -/
def after (s : Session) (lines : List String) : Session :=
  lines.foldl (fun s line => (s.evaluate line).1) s

theorem after_cons (s : Session) (line : String) (lines : List String) :
    s.after (line :: lines) = (s.evaluate line).1.after lines :=
  rfl

/-- The lines that do not fail, where they are evaluated one after the other. -/
def successes (s : Session) : List String → List String
  | [] => []
  | line :: lines =>
    match s.evaluate line with
    | (s, .failed _) => successes s lines
    | (s, _) => line :: successes s lines

/-- Lines that fail can be left out, if none of them does so because its result does not fit. -/
theorem after_successes {lines : List String}
    (h : ∀ before line rest, lines = before ++ line :: rest → ∀ shortage,
      ((s.after before).evaluate line).2 ≠ .failed (.storing (.allocation shortage))) :
    s.after (s.successes lines) = s.after lines := by
  induction lines generalizing s with
  | nil => rfl
  | cons line lines ih =>
      have hrest : (s.evaluate line).1.after ((s.evaluate line).1.successes lines) =
          (s.evaluate line).1.after lines := by
        refine ih fun before next rest hlines shortage => ?_
        rw [← after_cons]
        exact h (line :: before) next rest (congrArg (line :: ·) hlines) shortage
      rw [after_cons, ← hrest, successes]
      split
      case h_1 s' error hfailed =>
        rw [hfailed]
        rcases failed_cases hfailed with rfl | ⟨_, _, _, _, -, -, -, -, ⟨shortage, rfl⟩, -⟩
        · rfl
        · exact absurd (congrArg Prod.snd hfailed) (h [] line lines rfl shortage)
      case h_2 s' result _ hresult => rw [after_cons, hresult]

end Session

end PocketAlgebra
