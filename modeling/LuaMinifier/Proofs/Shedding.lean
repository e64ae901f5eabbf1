import LuaMinifier.Proofs.ReadStatements

/-!
Readers that run side by side, on tokens and on the same tokens with fewer semicolons. A semicolon can be left out in
front of what ends a statement anyway; readers that stop there stop without it too, and those that cannot refuse it.
-/

namespace LuaMinifier

open Token

/-- Tokens that can stand behind a statement, semicolons apart. -/
def Token.Kind.parts (kind : Kind) : Bool := Parser.endsStatement kind && kind ≠ .symbol .semicolon

/-- The same tokens, some semicolons left out that stand in front of what ends a statement anyway. -/
inductive Sheds : List Kind → List Kind → Prop
  | nil : Sheds [] []
  | cons {kinds lighter : List Kind} (kind : Kind) : Sheds kinds lighter → Sheds (kind :: kinds) (kind :: lighter)
  | drop {kinds lighter : List Kind} : (lighter.headD .eof).parts = true → Sheds kinds lighter →
      Sheds (.symbol .semicolon :: kinds) lighter

theorem Sheds.refl : ∀ kinds : List Kind, Sheds kinds kinds
  | [] => .nil
  | kind :: rest => .cons kind (refl rest)

theorem Sheds.dropWhile {kinds lighter : List Kind} (sheds : Sheds kinds lighter) :
    Sheds (kinds.dropWhile (· = .symbol .semicolon)) (lighter.dropWhile (· = .symbol .semicolon)) := by
  induction sheds with
  | nil => exact .nil
  | cons kind rest ih =>
      by_cases skipped : kind = .symbol .semicolon
      · simpa [skipped] using ih
      · simpa [skipped] using .cons kind rest
  | drop _ _ ih => simpa using ih

namespace Input

/-- The tokens still to be read are the same, apart from semicolons that are left out. -/
def Sheds (input lighter : Input) : Prop :=
  LuaMinifier.Sheds (input.tokens.map (·.kind)) (lighter.tokens.map (·.kind))

/-- Both next tokens are of the same kind. -/
structure Faces (input lighter : Input) : Prop where
  same : input.current.kind = lighter.current.kind
  sheds : input.Sheds lighter
  rest : input.rest.Sheds lighter.rest

/-- The next token is a semicolon that is left out in front of a token of some kind. -/
structure Parts (kind : Kind) (input lighter : Input) : Prop where
  semicolon : input.current.kind = .symbol .semicolon
  found : lighter.current.kind = kind
  parts : kind.parts = true
  sheds : input.Sheds lighter
  rest : input.rest.Sheds lighter

variable {input lighter : Input}

theorem current_kind (input : Input) : input.current.kind = (input.tokens.map (·.kind)).headD .eof := by
  cases tokens : input.tokens <;> simp [Input.current, tokens]

theorem Sheds.cases (sheds : input.Sheds lighter) : input.Faces lighter ∨ input.Parts lighter.current.kind lighter := by
  have whole := sheds
  unfold Input.Sheds at sheds
  generalize found : input.tokens.map (·.kind) = kinds at sheds
  generalize found' : lighter.tokens.map (·.kind) = others at sheds
  have rest : input.rest.tokens.map (·.kind) = kinds.tail := by rw [← found, Input.rest, List.map_tail]
  have rest' : lighter.rest.tokens.map (·.kind) = others.tail := by rw [← found', Input.rest, List.map_tail]
  cases sheds with
  | nil => exact .inl ⟨by simp [current_kind, found, found'], whole, by simp [Input.Sheds, rest, rest', Sheds.nil]⟩
  | cons kind behind =>
      exact .inl ⟨by simp [current_kind, found, found'], whole, by simpa [Input.Sheds, rest, rest'] using behind⟩
  | drop parts behind =>
      exact .inr ⟨by simp [current_kind, found], rfl, by simpa [current_kind, found'] using parts, whole,
        by simpa [Input.Sheds, rest, found'] using behind⟩

end Input

theorem Token.Kind.parts_cases {kind : Kind} (parts : kind.parts = true) :
    Parser.isBoundary kind = true ∧ UnaryOp.ofToken? kind = none ∧ Parser.literalOf? kind = none ∧
      kind ∉ [.symbol .comma, .symbol .assign, .symbol .semicolon, .symbol .dot, .symbol .colon, .symbol .dotDotDot,
        .symbol .rightBrace, .symbol .rightParen, .symbol .leftBracket, .symbol .leftBrace] := by
  cases kind with
  | symbol sign => cases sign <;> first | (exact ⟨rfl, rfl, rfl, by decide⟩) | (revert parts; decide)
  | keyword reserved => cases reserved <;> first | (exact ⟨rfl, rfl, rfl, by decide⟩) | (revert parts; decide)
  | name text => exact ⟨rfl, rfl, rfl, by simp⟩
  | eof => exact ⟨rfl, rfl, rfl, by decide⟩
  | _ => simp [Kind.parts, Parser.endsStatement, Parser.endsBlock, Kind.startsLine, Kind.startsStatement] at parts

namespace Parser

variable {α β γ δ : Type}

/-- Where two readers that start from related inputs both give something, they give the same thing, in some sense, and
leave the same tokens apart from semicolons. -/
def Agree (start : Input → Input → Prop) (first : Parser α) (second : Parser β) (same : α → β → Prop) : Prop :=
  ∀ (input lighter : Input) (value : α) (result : β) (rest others : Input), start input lighter →
    first.run input = .ok (value, rest) → second.run lighter = .ok (result, others) →
      same value result ∧ rest.Sheds others

/-- A reader that gives nothing where a semicolon stands. -/
def Refuses (reader : Parser α) : Prop :=
  ∀ (input : Input) (value : α) (rest : Input), input.current.kind = .symbol .semicolon →
    reader.run input ≠ .ok (value, rest)

theorem fail_ne_ok {cause : SyntaxError.Cause} {position : Position} {input rest : Input} {value : α} :
    (Parser.fail cause position : Parser α).run input ≠ .ok (value, rest) := by
  intro run
  cases run

theorem unexpected_ne_ok {expectation : SyntaxError.Expectation} {input rest : Input} {value : α} :
    (Parser.unexpected expectation : Parser α).run input ≠ .ok (value, rest) := by
  intro run
  cases run

theorem tooDeep_ne_ok {input rest : Input} {value : α} :
    (Parser.tooDeep : Parser α).run input ≠ .ok (value, rest) := by
  intro run
  cases run

theorem run_bind_ok {reader : Parser α} {next : α → Parser β} {input rest : Input} {value : β}
    (run : (reader >>= next).run input = .ok (value, rest)) :
    ∃ first middle, reader.run input = .ok (first, middle) ∧ (next first).run middle = .ok (value, rest) := by
  rw [StateT.run_bind] at run
  cases ran : reader.run input with
  | error failure =>
      rw [ran] at run
      cases run
  | ok pair =>
      rw [ran] at run
      exact ⟨pair.1, pair.2, rfl, run⟩

namespace Refuses

theorem bind {reader : Parser α} {next : α → Parser β} (refuses : Refuses reader) : Refuses (reader >>= next) := by
  intro input value rest semicolon run
  obtain ⟨_, _, front, _⟩ := run_bind_ok run
  exact refuses input _ _ semicolon front

theorem current {next : Token → Parser α} (refuses : ∀ token, token.kind = .symbol .semicolon → Refuses (next token)) :
    Refuses (Parser.current >>= next) := by
  intro input value rest semicolon run
  rw [StateT.run_bind, run_current, ok_bind] at run
  exact refuses input.current semicolon input value rest semicolon run

theorem unexpected {expectation : SyntaxError.Expectation} : Refuses (Parser.unexpected expectation : Parser α) :=
  fun _ _ _ _ => unexpected_ne_ok

theorem tooDeep : Refuses (Parser.tooDeep : Parser α) := fun _ _ _ _ => tooDeep_ne_ok

theorem accept {kind : Kind} (other : kind ≠ .symbol .semicolon) {next : Bool → Parser α}
    (refuses : Refuses (next false)) : Refuses (Parser.accept kind >>= next) := by
  intro input value rest semicolon run
  rw [StateT.run_bind, run_accept_other (by rw [semicolon]; exact other.symm), ok_bind] at run
  exact refuses input value rest semicolon run

theorem name : Refuses Parser.name :=
  .current fun token semicolon => by
    simp only [semicolon]
    exact unexpected

theorem keyword {reserved : Keyword} : Refuses (Parser.keyword reserved) := accept (by simp) unexpected

theorem suffixed : ∀ fuel, Refuses (Parser.suffixed fuel)
  | 0 => tooDeep
  | fuel + 1 => .current fun token semicolon => by
    simp only [semicolon]
    exact unexpected

theorem operand : ∀ fuel, Refuses (Parser.operand fuel)
  | 0 => tooDeep
  | fuel + 1 => .current fun token semicolon => by
    simp only [semicolon, literalOf?]
    exact suffixed fuel

theorem expression : ∀ fuel limit, Refuses (Parser.expression fuel limit)
  | 0, _ => tooDeep
  | fuel + 1, limit => .current fun token semicolon => by
    simp only [semicolon, UnaryOp.ofToken?]
    exact (operand fuel).bind

theorem assignmentOrCall : ∀ fuel position, Refuses (Parser.assignmentOrCall fuel position)
  | 0, _ => tooDeep
  | fuel + 1, _ => (suffixed fuel).bind

theorem statement : ∀ fuel, Refuses (Parser.statement fuel)
  | 0 => tooDeep
  | fuel + 1 => .current fun token semicolon => by
    simp only [semicolon]
    exact assignmentOrCall fuel _

end Refuses

namespace Agree

variable {start : Input → Input → Prop} {first : Parser α} {second : Parser β} {same : α → β → Prop}

theorem pure {value : α} {result : β} (sheds : ∀ {input lighter}, start input lighter → input.Sheds lighter)
    (holds : same value result) : Agree start (Pure.pure value : Parser α) (Pure.pure result : Parser β) same := by
  intro input lighter _ _ _ _ related run runOther
  cases run
  cases runOther
  exact ⟨holds, sheds related⟩

theorem start_mono {weaker : Input → Input → Prop} (agree : Agree weaker first second same)
    (weaken : ∀ {input lighter}, start input lighter → weaker input lighter) : Agree start first second same :=
  fun _ _ _ _ _ _ related run runOther => agree _ _ _ _ _ _ (weaken related) run runOther

theorem bind {next : α → Parser γ} {nextOther : β → Parser δ} {whole : γ → δ → Prop}
    (front : Agree start first second same)
    (back : ∀ {value result}, same value result → Agree Input.Sheds (next value) (nextOther result) whole) :
    Agree start (first >>= next) (second >>= nextOther) whole := by
  intro input lighter _ _ _ _ related run runOther
  obtain ⟨value, middle, ran, further⟩ := run_bind_ok run
  obtain ⟨result, middleOther, ranOther, furtherOther⟩ := run_bind_ok runOther
  obtain ⟨holds, sheds⟩ := front _ _ _ _ _ _ related ran ranOther
  exact back holds _ _ _ _ _ _ sheds further furtherOther

theorem of_first (refused : ∀ {input value rest}, first.run input ≠ .ok (value, rest)) :
    Agree start first second same :=
  fun _ _ _ _ _ _ _ run => absurd run refused

theorem of_second (refused : ∀ {input value rest}, second.run input ≠ .ok (value, rest)) :
    Agree start first second same :=
  fun _ _ _ _ _ _ _ _ run => absurd run refused

theorem of_refuses {kind : Kind} (refuses : Refuses first) : Agree (Input.Parts kind) first second same :=
  fun _ _ _ _ _ _ parts run => absurd run (refuses _ _ _ parts.semicolon)

theorem advance : Agree Input.Faces Parser.advance Parser.advance fun _ _ => True := by
  intro input lighter _ _ _ _ faces run runOther
  cases run
  cases runOther
  exact ⟨trivial, faces.rest⟩

/-- Readers that look at the next token: either both see the same, or the first one sees a semicolon that the second
one does not have. -/
theorem current {next : Token → Parser α} {nextOther : Token → Parser β}
    (facing : ∀ kind position positionOther,
      Agree Input.Faces (next ⟨kind, position⟩) (nextOther ⟨kind, positionOther⟩) same)
    (parting : ∀ position kind positionOther, kind.parts = true →
      Agree (Input.Parts kind) (next ⟨.symbol .semicolon, position⟩) (nextOther ⟨kind, positionOther⟩) same) :
    Agree Input.Sheds (Parser.current >>= next) (Parser.current >>= nextOther) same := by
  intro input lighter _ _ _ _ sheds run runOther
  rw [StateT.run_bind, run_current, ok_bind] at run runOther
  rcases sheds.cases with faces | parts
  · rw [show input.current = ⟨lighter.current.kind, input.current.position⟩ by rw [← faces.same]] at run
    exact facing _ _ _ _ _ _ _ _ _ faces run runOther
  · rw [show input.current = ⟨.symbol .semicolon, input.current.position⟩ by rw [← parts.semicolon]] at run
    exact parting _ _ _ parts.parts _ _ _ _ _ _ parts run runOther

theorem position {next : Token → Parser α} {nextOther : Token → Parser β}
    (back : ∀ token other, Agree Input.Sheds (next token) (nextOther other) same) :
    Agree Input.Sheds (Parser.current >>= next) (Parser.current >>= nextOther) same :=
  current (fun _ _ _ => (back _ _).start_mono Input.Faces.sheds) fun _ _ _ _ => (back _ _).start_mono Input.Parts.sheds

theorem accept_refusing {kind : Kind} (other : kind ≠ .symbol .semicolon) {next : Bool → Parser α}
    {nextOther : Bool → Parser β} (yes : Agree Input.Sheds (next true) (nextOther true) same)
    (no : Agree Input.Sheds (next false) (nextOther false) same)
    (refuses : kind.parts = true → Refuses (next false)) :
    Agree Input.Sheds (Parser.accept kind >>= next) (Parser.accept kind >>= nextOther) same := by
  intro input lighter _ _ _ _ sheds run runOther
  rw [StateT.run_bind] at run runOther
  rcases sheds.cases with faces | parts
  · by_cases found : lighter.current.kind = kind
    · rw [run_accept (faces.same.trans found), ok_bind] at run
      rw [run_accept found, ok_bind] at runOther
      exact yes _ _ _ _ _ _ faces.rest run runOther
    · rw [run_accept_other (by rwa [faces.same]), ok_bind] at run
      rw [run_accept_other found, ok_bind] at runOther
      exact no _ _ _ _ _ _ sheds run runOther
  · rw [run_accept_other (by rw [parts.semicolon]; exact other.symm), ok_bind] at run
    by_cases found : lighter.current.kind = kind
    · exact absurd run (refuses (found ▸ parts.parts) _ _ _ parts.semicolon)
    · rw [run_accept_other found, ok_bind] at runOther
      exact no _ _ _ _ _ _ sheds run runOther

theorem accept_bind {kind : Kind} (closed : kind ≠ .symbol .semicolon ∧ kind.parts = false) {next : Bool → Parser α}
    {nextOther : Bool → Parser β} (yes : Agree Input.Sheds (next true) (nextOther true) same)
    (no : Agree Input.Sheds (next false) (nextOther false) same) :
    Agree Input.Sheds (Parser.accept kind >>= next) (Parser.accept kind >>= nextOther) same :=
  accept_refusing closed.1 yes no fun parts => absurd parts (by simp [closed.2])

theorem symbol {sign : Symbol} (other : sign ≠ .semicolon) :
    Agree Input.Sheds (Parser.symbol sign) (Parser.symbol sign) fun _ _ => True :=
  accept_refusing (mt Kind.symbol.inj other) (.pure id trivial) (.of_first unexpected_ne_ok) fun _ => .unexpected

theorem keyword {reserved : Keyword} :
    Agree Input.Sheds (Parser.keyword reserved) (Parser.keyword reserved) fun _ _ => True :=
  accept_refusing (by simp) (.pure id trivial) (.of_first unexpected_ne_ok) fun _ => .unexpected

theorem map {change : α → γ} {changeOther : β → δ} {whole : γ → δ → Prop} (agree : Agree start first second same)
    (holds : ∀ {value result}, same value result → whole (change value) (changeOther result)) :
    Agree start (change <$> first) (changeOther <$> second) whole := by
  rw [← bind_pure_comp, ← bind_pure_comp]
  exact agree.bind fun known => .pure id (holds known)

theorem accept_semicolon : Agree Input.Sheds (Parser.accept (.symbol .semicolon))
    (Parser.accept (.symbol .semicolon)) fun _ _ => True := by
  intro input lighter _ _ _ _ sheds run runOther
  rcases sheds.cases with faces | parts
  · by_cases found : lighter.current.kind = .symbol .semicolon
    · rw [run_accept (faces.same.trans found)] at run
      rw [run_accept found] at runOther
      cases run
      cases runOther
      exact ⟨trivial, faces.rest⟩
    · rw [run_accept_other (by rwa [faces.same])] at run
      rw [run_accept_other found] at runOther
      cases run
      cases runOther
      exact ⟨trivial, sheds⟩
  · have other : lighter.current.kind ≠ .symbol .semicolon := by
      simpa using fun same => (Kind.parts_cases parts.parts).2.2.2 (by simp [same])
    rw [run_accept parts.semicolon] at run
    rw [run_accept_other other] at runOther
    cases run
    cases runOther
    exact ⟨trivial, parts.rest⟩

theorem skip : Agree Input.Sheds (Parser.skip (.symbol .semicolon)) (Parser.skip (.symbol .semicolon))
    fun _ _ => True := by
  intro input lighter _ _ _ _ sheds run runOther
  cases run
  cases runOther
  refine ⟨trivial, ?_⟩
  have dropped := LuaMinifier.Sheds.dropWhile sheds
  rw [List.dropWhile_map, List.dropWhile_map] at dropped
  exact dropped

theorem name : Agree Input.Sheds Parser.name Parser.name fun read other => other.text = read.text := by
  refine current (fun kind position positionOther => ?_) fun _ _ _ _ => .of_first unexpected_ne_ok
  dsimp only
  split
  · exact advance.bind fun _ => .pure id rfl
  · exact .of_first unexpected_ne_ok

theorem moreNames : ∀ fuel other, Agree Input.Sheds (Parser.moreNames fuel) (Parser.moreNames other) fun read others =>
    others.map Name.text = read.map Name.text
  | 0, _ => .of_first tooDeep_ne_ok
  | _ + 1, 0 => .of_second tooDeep_ne_ok
  | fuel + 1, other + 1 => by
    refine accept_bind (by decide) (name.bind fun same => (moreNames fuel other).bind fun others => ?_)
      (.pure id rfl)
    exact .pure id (by simp [same, others])

theorem moreFields : ∀ fuel other, Agree Input.Sheds (Parser.moreFields fuel) (Parser.moreFields other)
    fun read others => others.map Name.view = read.map Name.view
  | 0, _ => .of_first tooDeep_ne_ok
  | _ + 1, 0 => .of_second tooDeep_ne_ok
  | fuel + 1, other + 1 => by
    refine accept_bind (by decide) (name.bind fun same => (moreFields fuel other).bind fun others => ?_)
      (.pure id rfl)
    exact .pure id (by simp [Name.view, same, others])

theorem functionName (fuel other : Nat) : Agree Input.Sheds (Parser.functionName fuel) (Parser.functionName other)
    fun read called => called.view Name.text = read.view Name.text := by
  refine name.bind fun root => (moreFields fuel other).bind fun fields => accept_bind (by decide) ?_ ?_
  · refine (name.map fun method => ?_ : Agree _ _ _ fun read called => called.map Name.view = read.map Name.view).bind
      fun method => .pure id (by simp [FunctionName.view, root, fields, method])
    simp [Name.view, method]
  · simp only [Bool.false_eq_true, ↓reduceIte, pure_bind]
    exact .pure id (by simp [FunctionName.view, root, fields])

theorem someParameters : ∀ fuel other, Agree Input.Sheds (Parser.someParameters fuel) (Parser.someParameters other)
    fun read given => given.view Name.text = read.view Name.text
  | 0, _ => .of_first tooDeep_ne_ok
  | _ + 1, 0 => .of_second tooDeep_ne_ok
  | fuel + 1, other + 1 => by
    refine position fun token tokenOther => accept_bind (by decide) (.pure id rfl) ?_
    refine name.bind fun same => accept_bind (by decide) ((someParameters fuel other).bind fun further => ?_) ?_
    · refine .pure id ?_
      simp_all [Parameters.view]
    · exact .pure id (by simp [Parameters.view, same])

theorem sees_bind {kind : Kind} (closed : kind ≠ .symbol .semicolon ∧ kind.parts = false)
    {next : Bool → Parser α} {nextOther : Bool → Parser β}
    (yes : Agree Input.Sheds (next true) (nextOther true) same)
    (no : Agree Input.Sheds (next false) (nextOther false) same) :
    Agree Input.Sheds (Parser.sees kind >>= next) (Parser.sees kind >>= nextOther) same := by
  intro input lighter _ _ _ _ sheds run runOther
  rw [StateT.run_bind, run_sees, ok_bind] at run runOther
  have alike : input.current.kind = kind ↔ lighter.current.kind = kind := by
    rcases sheds.cases with faces | parts
    · rw [faces.same]
    · have apart : lighter.current.kind ≠ kind := by
        rintro rfl
        simp [parts.parts] at closed
      simp [parts.semicolon, closed.1.symm, apart]
  by_cases found : lighter.current.kind = kind
  · rw [decide_eq_true (alike.mpr found)] at run
    rw [decide_eq_true found] at runOther
    exact yes _ _ _ _ _ _ sheds run runOther
  · rw [decide_eq_false (mt alike.mp found)] at run
    rw [decide_eq_false found] at runOther
    exact no _ _ _ _ _ _ sheds run runOther

theorem parameters (fuel other : Nat) : Agree Input.Sheds (Parser.parameters fuel) (Parser.parameters other)
    fun read given => given.view Name.text = read.view Name.text := by
  refine (symbol (by decide)).bind fun _ => sees_bind (by decide) ?_ ?_
  · simp only [↓reduceIte, pure_bind]
    exact (symbol (by decide)).bind fun _ => .pure id rfl
  · exact (someParameters fuel other).bind fun same => (symbol (by decide)).bind fun _ => .pure id same

end Agree
end Parser

end LuaMinifier
