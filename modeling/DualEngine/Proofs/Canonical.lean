import DualEngine.Node.Parse
import DualEngine.Proofs.FloatSign
import DualEngine.Proofs.Trees

/-! # Canonical trees

The trees that a source text can stand for, described without the parser. Whatever the parser reads
is such a tree: it resolves all parentheses and signs, and an `else` belongs to the nearest `if`.
-/
namespace DualEngine

variable {c : Char} {cs : List Char} {node : Node} {source : String} {type : TokenType}

/-! ## Names and literals -/

/-- A word that is not one of the language's own. -/
structure IsName (name : String) : Prop where
  start : ∃ c cs, name.toList = c :: cs ∧ Text.isNameStart c = true
  part : ∀ c ∈ name.toList, Text.isNamePart c = true
  free : wordType name = .identifier

/-- Digits, a point and digits. -/
def IsFloatText (text : String) : Prop :=
  ∃ whole fraction, text.toList = whole ++ '.' :: fraction ∧ whole ≠ [] ∧ fraction ≠ [] ∧
    ∀ c ∈ whole ++ fraction, Text.isDigit c = true

/-- The literal, with a sign before it or without, stands for the float. -/
structure Spells (negative : Bool) (text : String) (x : Float) : Prop where
  form : IsFloatText text
  value : ∃ y, Parse.floatLiteral text = .ok y ∧ x = if negative then -y else y

theorem Spells.neg {negative : Bool} {text : String} {x : Float} (h : Spells negative text x) :
    Spells (!negative) text (-x) := by
  obtain ⟨form, y, hy, rfl⟩ := h
  refine ⟨form, y, hy, ?_⟩
  cases negative with
  | false => rfl
  | true => exact FloatSign.neg_neg y

/-- What parsing relies on: names are names, and the text of a float has the form of one. -/
structure Token.Sound (t : Token) : Prop where
  name : t.type = .identifier → IsName t.value
  float : t.type = .float → IsFloatText t.value

/-! ## What the scanner gives -/

theorem Token.sound_of_ne {t : Token} (h : t.type ≠ .identifier ∧ t.type ≠ .float) : t.Sound :=
  ⟨fun hname => absurd hname h.1, fun hfloat => absurd hfloat h.2⟩

theorem wordType_ne_float (word : String) : wordType word ≠ .float := by
  unfold wordType
  split_ifs <;> simp

theorem sound_readWord (h : Text.isNameStart c = true) (p : Position) :
    Token.Sound ⟨(readWord (c :: cs)).type, (readWord (c :: cs)).value, p⟩ := by
  refine ⟨fun hname => ⟨⟨c, cs.takeWhile Text.isNamePart, ?_, h⟩, fun d hd => ?_, hname⟩,
    fun hfloat => absurd hfloat (wordType_ne_float _)⟩
  · rw [readWord, String.toList_ofList, List.takeWhile_cons_of_pos (isNamePart_of_isNameStart h)]
  · rw [readWord, String.toList_ofList] at hd
    exact List.mem_takeWhile_imp hd

theorem sound_readNumber (h : Text.isDigit c = true) (p : Position) :
    Token.Sound ⟨(readNumber (c :: cs)).type, (readNumber (c :: cs)).value, p⟩ := by
  unfold readNumber
  dsimp only
  split
  · split
    · exact Token.sound_of_ne ⟨by simp, by simp⟩
    · rename_i rest _ hfraction
      refine ⟨by simp, fun _ => ⟨_, _, String.toList_ofList, ?_, hfraction, ?_⟩⟩
      · simp [h]
      · intro d hd
        rcases List.mem_append.mp hd with hd | hd
        · exact List.mem_takeWhile_imp hd
        · exact List.mem_takeWhile_imp hd
  · exact Token.sound_of_ne ⟨by simp, by simp⟩

theorem pairType?_ne {d : Char} (h : pairType? c d = some type) :
    type ≠ .identifier ∧ type ≠ .float := by
  unfold pairType? at h
  split at h <;> first | (cases h; decide) | cases h

theorem singleType?_ne (h : singleType? c = some type) : type ≠ .identifier ∧ type ≠ .float := by
  unfold singleType? at h
  split at h <;> first | (cases h; decide) | cases h

theorem sound_readLexeme {p q : Position} {l : Lexeme} (h : readLexeme p c cs = .ok l) :
    Token.Sound ⟨l.type, l.value, q⟩ := by
  unfold readLexeme at h
  split at h
  · rename_i type htype
    cases h
    obtain ⟨d, -, hpair⟩ := Option.bind_eq_some_iff.mp htype
    exact Token.sound_of_ne (pairType?_ne hpair)
  split at h
  · rename_i type htype
    cases h
    exact Token.sound_of_ne (singleType?_ne htype)
  split at h
  · obtain ⟨⟨value, width, rest⟩, -, h⟩ := bind_inv h
    cases h
    exact Token.sound_of_ne ⟨by simp, by simp⟩
  split at h
  · rename_i hdigit
    cases h
    exact sound_readNumber hdigit q
  split at h
  · rename_i hstart
    cases h
    exact sound_readWord hstart q
  · cases h

theorem sound_tokensFrom (p : Position) (cs : List Char) {ts : List Token}
    (h : tokensFrom p cs = .ok ts) : ∀ t ∈ ts, t.Sound := by
  fun_induction tokensFrom p cs generalizing ts with
  | case1 =>
    cases h
    simp
  | case2 p c cs hblank ih => exact ih h
  | case3 p c cs hblank hcomment ih => exact ih h
  | case4 => cases h
  | case5 p c cs hblank hcomment l hl ih =>
    obtain ⟨more, hmore, h⟩ := bind_inv h
    cases h
    rintro t ht
    rcases List.mem_cons.mp ht with rfl | ht
    · exact sound_readLexeme hl
    · exact ih hmore t ht

/-! ## Canonical trees -/

namespace Node

variable {node : Node}

/-- The statements of a body: those between braces, or a single one. -/
def statements : Node → List Node
  | .sequence statements => statements
  | node => [node]

/-- The last token of the tree belongs to an `if` without an `else`. -/
def endsOpen : Node → Bool
  | .branch _ _ .missing => true
  | .branch _ _ elsePart => elsePart.endsOpen
  | .loop _ _ _ body => body.endsOpen
  | .define _ _ body => body.endsOpen
  | _ => false

inductive Expression : Node → Prop
  | number (n : Int) : Expression (.number n)
  | float {x : Float} {negative : Bool} {text : String} (h : Spells negative text x) :
    Expression (.float x)
  | string (s : String) : Expression (.string s)
  | boolean (b : Bool) : Expression (.boolean b)
  | identifier {x : String} (hx : IsName x) : Expression (.identifier x)
  | binary {left right : Node} {op : ArithOp} (hop : op ∈ [.add, .sub, .mul, .div])
    (hl : Expression left) (hr : Expression right) : Expression (.binary left op right)
  | comparison {left right : Node} {op : CompareOp} (hop : op ∈ [.lt, .gt, .le, .ge, .eq, .ne])
    (hl : Expression left) (hr : Expression right) : Expression (.comparison left op right)
  | increment {x : String} (hx : IsName x) : Expression (.increment x)
  | decrement {x : String} (hx : IsName x) : Expression (.decrement x)
  | print {e : Node} (he : Expression e) : Expression (.print e)
  | random : Expression (.random .missing .missing)
  | randomBetween {low high : Node} (hl : Expression low) (hh : Expression high) :
    Expression (.random low high)
  | call {f : String} {args : List Node} (hf : IsName f) (hargs : ∀ arg ∈ args, Expression arg) :
    Expression (.call f args)
  | array {elements : List Node} (helements : ∀ element ∈ elements, Expression element) :
    Expression (.array elements)

/-- An expression or an assignment. -/
inductive Simple : Node → Prop
  | expression {e : Node} (he : Expression e) : Simple e
  | assign {x : String} {e : Node} (hx : IsName x) (he : Expression e) : Simple (.assign x e)

/-- Statements with bodies, each of which is a statement or a sequence of statements. A body before
an `else` does not end in an `if` that would take it. -/
inductive Statement : Node → Prop
  | simple {node : Node} (h : Simple node) : Statement node
  | branch {condition thenPart : Node} (hc : Expression condition)
    (ht : ∀ node ∈ thenPart.statements, Statement node) :
    Statement (.branch condition thenPart .missing)
  | branchElse {condition thenPart elsePart : Node} (hc : Expression condition)
    (ht : ∀ node ∈ thenPart.statements, Statement node)
    (he : ∀ node ∈ elsePart.statements, Statement node) (hclosed : thenPart.endsOpen = false) :
    Statement (.branch condition thenPart elsePart)
  | loop {start condition step body : Node} (hstart : start = .missing ∨ Simple start)
    (hcondition : condition = .missing ∨ Expression condition)
    (hstep : step = .missing ∨ Simple step) (hbody : ∀ node ∈ body.statements, Statement node) :
    Statement (.loop start condition step body)
  | define {f : String} {params : List String} {body : Node} (hf : IsName f)
    (hparams : ∀ param ∈ params, IsName param) (hdistinct : params.Nodup)
    (hbody : ∀ node ∈ body.statements, Statement node) : Statement (.define f params body)

/-- A submission: a sequence of statements. -/
inductive Canonical : Node → Prop
  | sequence {statements : List Node} (h : ∀ node ∈ statements, Statement node) :
    Canonical (.sequence statements)

theorem Expression.statements_eq (h : Expression node) : node.statements = [node] := by
  cases h <;> rfl

theorem Simple.statements_eq (h : Simple node) : node.statements = [node] := by
  cases h with
  | expression he => exact he.statements_eq
  | assign => rfl

theorem Statement.statements_eq (h : Statement node) : node.statements = [node] := by
  cases h with
  | simple h => exact h.statements_eq
  | _ => rfl

theorem Simple.endsOpen_eq (h : Simple node) : node.endsOpen = false := by
  cases h with
  | expression he => cases he <;> rfl
  | assign => rfl

/-- A body is not left out. -/
theorem ne_missing_of_statements (h : ∀ part ∈ node.statements, Statement part) :
    node ≠ .missing := by
  rintro rfl
  cases h .missing (by simp [statements]) with
  | simple h =>
    cases h with
    | expression he => cases he

/-- A tree that the parser reads, or a part of one, which may be left out. -/
def IsPart (node : Node) : Prop := node = .missing ∨ ∀ part ∈ node.statements, Statement part

theorem Statement.isPart (h : Statement node) : IsPart node :=
  .inr fun _ hpart => List.mem_singleton.mp (h.statements_eq ▸ hpart) ▸ h

theorem Simple.isPart (h : Simple node) : IsPart node := (Statement.simple h).isPart

theorem Expression.isPart (h : Expression node) : IsPart node :=
  (Simple.expression h).isPart

theorem Expression.child (h : Expression node) : ∀ child ∈ node.children, IsPart child := by
  cases h with
  | binary _ hl hr | comparison _ hl hr | randomBetween hl hr =>
    simp only [children, List.forall_mem_cons]
    exact ⟨hl.isPart, hr.isPart, by simp⟩
  | random => simp [children, IsPart]
  | print he => simpa [children] using he.isPart
  | call _ hnodes | array hnodes => exact fun child hc => (hnodes child hc).isPart
  | _ => simp [children]

theorem Statement.child (h : Statement node) : ∀ child ∈ node.children, IsPart child := by
  cases h with
  | simple h =>
    cases h with
    | expression he => exact he.child
    | assign _ he => simpa [children] using he.isPart
  | branch hcondition ht =>
    simp only [children, List.forall_mem_cons]
    exact ⟨hcondition.isPart, .inr ht, .inl rfl, by simp⟩
  | branchElse hcondition ht he =>
    simp only [children, List.forall_mem_cons]
    exact ⟨hcondition.isPart, .inr ht, .inr he, by simp⟩
  | loop hstart hcondition hstep hbody =>
    simp only [children, List.forall_mem_cons]
    exact ⟨hstart.elim .inl Simple.isPart, hcondition.elim .inl Expression.isPart,
      hstep.elim .inl Simple.isPart, .inr hbody, by simp⟩
  | define _ _ _ hbody => simpa [children] using .inr hbody

/-- What stands right below a part is a part. -/
theorem IsPart.child (h : IsPart node) : ∀ child ∈ node.children, IsPart child := by
  rcases h with rfl | h
  · simp [children]
  · cases node with
    | sequence => exact fun child hc => (h child hc).isPart
    | _ => exact (h _ List.mem_cons_self).child

/-- All that stands inside a part is a part. -/
theorem IsPart.of_mem_subtrees {t : Node} (h : IsPart node) (ht : t ∈ node.subtrees) : IsPart t := by
  induction node using Node.induction with
  | h node ih =>
    rw [subtrees_eq, List.mem_cons, List.mem_flatMap] at ht
    rcases ht with rfl | ⟨child, hchild, ht⟩
    · exact h
    · exact ih child hchild (h.child child hchild) ht

theorem endsOpen_branch {condition thenPart elsePart : Node} (h : elsePart ≠ .missing) :
    (branch condition thenPart elsePart).endsOpen = elsePart.endsOpen := by
  cases elsePart with
  | missing => exact absurd rfl h
  | _ => rfl

end Node

/-! ## What the parser reads -/

namespace Parse
open Node

/-- From sound tokens the parser reads what has the property, and leaves sound tokens. -/
def Yields {α : Type} (P : α → List Token → Prop) (p : Parser α) : Prop :=
  ∀ ts a rest, (∀ t ∈ ts, t.Sound) → p ts = .ok (a, rest) → P a rest ∧ ∀ t ∈ rest, t.Sound

/-- The parser reads expressions. -/
abbrev Expressions (p : Parser Node) : Prop := Yields (fun node _ => Expression node) p

theorem sound_tail {ts : List Token} (h : ∀ t ∈ ts, t.Sound) : ∀ t ∈ ts.tail, t.Sound :=
  fun t ht => h t (List.mem_of_mem_tail ht)

theorem yields_expect (type : TokenType) :
    Yields (fun t _ => t.type = type ∧ t.Sound) (expect type) := by
  intro ts t rest hts h
  cases ts with
  | nil => cases h
  | cons first ts =>
    rw [expect] at h
    split at h
    · rename_i htype
      cases h
      exact ⟨⟨htype, hts t List.mem_cons_self⟩, sound_tail hts⟩
    · cases h

variable {e s : Parser Node}

theorem Yields.commaSeparated (he : Expressions e) (more : Nat) :
    Yields (fun nodes _ => ∀ node ∈ nodes, Expression node) (commaSeparated e more) := by
  induction more with
  | zero =>
    intro ts nodes rest hts h
    obtain ⟨⟨first, ts1⟩, h1, h⟩ := bind_inv h
    cases h
    obtain ⟨hfirst, hrest⟩ := he _ _ _ hts h1
    exact ⟨by simpa using hfirst, hrest⟩
  | succ more ih =>
    intro ts nodes rest hts h
    obtain ⟨⟨first, ts1⟩, h1, h⟩ := bind_inv h
    obtain ⟨hfirst, hts1⟩ := he _ _ _ hts h1
    dsimp only at h
    split at h
    · obtain ⟨⟨others, ts2⟩, h2, h⟩ := bind_inv h
      cases h
      obtain ⟨hothers, hrest⟩ := ih _ _ _ (sound_tail hts1) h2
      exact ⟨by simpa using ⟨hfirst, hothers⟩, hrest⟩
    · cases h
      exact ⟨by simpa using hfirst, hts1⟩

theorem Yields.arguments (he : Expressions e) (closing : TokenType) :
    Yields (fun nodes _ => ∀ node ∈ nodes, Expression node) (arguments e closing) := by
  intro ts nodes rest hts h
  unfold Parse.arguments at h
  split at h
  · cases h
    exact ⟨by simp, sound_tail hts⟩
  · obtain ⟨⟨args, ts1⟩, h1, h⟩ := bind_inv h
    obtain ⟨⟨t, ts2⟩, h2, h⟩ := bind_inv h
    cases h
    obtain ⟨hargs, hts1⟩ := he.commaSeparated _ _ _ _ hts h1
    exact ⟨hargs, (yields_expect _ _ _ _ hts1 h2).2⟩

theorem Yields.enclosed (he : Expressions e) : Expressions (enclosed e) := by
  intro ts node rest hts h
  obtain ⟨⟨t, ts1⟩, h1, h⟩ := bind_inv h
  obtain ⟨⟨inner, ts2⟩, h2, h⟩ := bind_inv h
  obtain ⟨⟨u, ts3⟩, h3, h⟩ := bind_inv h
  cases h
  obtain ⟨hinner, hts2⟩ := he _ _ _ (yields_expect _ _ _ _ hts h1).2 h2
  exact ⟨hinner, (yields_expect _ _ _ _ hts2 h3).2⟩

theorem Yields.randomBounds (he : Expressions e) : Expressions (randomBounds e) := by
  intro ts node rest hts h
  obtain ⟨⟨t, ts1⟩, h1, h⟩ := bind_inv h
  have hts1 := (yields_expect _ _ _ _ hts h1).2
  dsimp only at h
  split at h
  · cases h
    exact ⟨.random, sound_tail hts1⟩
  · obtain ⟨⟨low, ts2⟩, h2, h⟩ := bind_inv h
    obtain ⟨⟨u, ts3⟩, h3, h⟩ := bind_inv h
    obtain ⟨⟨high, ts4⟩, h4, h⟩ := bind_inv h
    obtain ⟨⟨v, ts5⟩, h5, h⟩ := bind_inv h
    cases h
    obtain ⟨hlow, hts2⟩ := he _ _ _ hts1 h2
    obtain ⟨hhigh, hts4⟩ := he _ _ _ (yields_expect _ _ _ _ hts2 h3).2 h4
    exact ⟨.randomBetween hlow hhigh, (yields_expect _ _ _ _ hts4 h5).2⟩

theorem Yields.primary (he : Expressions e) : Expressions (primary e) := by
  intro ts node rest hts h
  cases ts with
  | nil => cases h
  | cons t ts =>
    have ht := hts t List.mem_cons_self
    have hts' : ∀ t ∈ ts, t.Sound := sound_tail hts
    simp only [Parse.primary] at h
    split at h
    · obtain ⟨n, -, h⟩ := bind_inv h
      cases h
      exact ⟨.number n, hts'⟩
    · rename_i htype
      obtain ⟨x, hx, h⟩ := bind_inv h
      cases h
      exact ⟨.float (⟨ht.float htype, x, hx, rfl⟩ : Spells false t.value x), hts'⟩
    · cases h
      exact ⟨.string _, hts'⟩
    · cases h
      exact ⟨.boolean true, hts'⟩
    · cases h
      exact ⟨.boolean false, hts'⟩
    · obtain ⟨⟨inner, ts1⟩, h1, h⟩ := bind_inv h
      cases h
      obtain ⟨hinner, hrest⟩ := he.enclosed _ _ _ hts' h1
      exact ⟨.print hinner, hrest⟩
    · exact he.randomBounds _ _ _ hts' h
    · rename_i htype
      split at h
      · obtain ⟨⟨args, ts1⟩, h1, h⟩ := bind_inv h
        cases h
        obtain ⟨hargs, hrest⟩ := he.arguments _ _ _ _ (sound_tail hts') h1
        exact ⟨.call (ht.name htype) hargs, hrest⟩
      · cases h
        exact ⟨.identifier (ht.name htype), hts'⟩
    · obtain ⟨⟨elements, ts1⟩, h1, h⟩ := bind_inv h
      cases h
      obtain ⟨helements, hrest⟩ := he.arguments _ _ _ _ hts' h1
      exact ⟨.array helements, hrest⟩
    · exact he.enclosed _ _ _ hts h
    · cases h

theorem Yields.stepped (he : Expressions e) : Expressions (stepped e) := by
  intro ts node rest hts h
  unfold Parse.stepped at h
  split at h
  · rename_i t u ts'
    have ht := hts t List.mem_cons_self
    split at h
    · rename_i hstep
      cases h
      exact ⟨.increment (ht.name hstep.1), sound_tail (sound_tail hts)⟩
    split at h
    · rename_i hstep
      cases h
      exact ⟨.decrement (ht.name hstep.1), sound_tail (sound_tail hts)⟩
    · exact he.primary _ _ _ hts h
  · exact he.primary _ _ _ hts h

theorem expression_negate {node : Node} (h : Expression node) : Expression (negate node) := by
  have hself := h
  cases h with
  | number n => exact .number (-n)
  | float h => exact .float h.neg
  | _ => exact .binary (by simp) (.number 0) hself

theorem Yields.unary (he : Expressions e) : Expressions (unary e) := by
  intro ts
  induction ts with
  | nil => exact he.stepped _
  | cons t ts ih =>
    intro node rest hts h
    unfold Parse.unary at h
    split at h
    · obtain ⟨⟨operand, ts1⟩, h1, h⟩ := bind_inv h
      cases h
      obtain ⟨hoperand, hrest⟩ := ih _ _ (sound_tail hts) h1
      exact ⟨expression_negate hoperand, hrest⟩
    · exact he.stepped _ _ _ hts h

theorem Yields.chain {operand : Parser Node} (ho : Expressions operand)
    {op? : TokenType → Option ArithOp}
    (hop : ∀ type op, op? type = some op → op ∈ [ArithOp.add, .sub, .mul, .div]) (limit : Nat)
    {left : Node} (hl : Expression left) : Expressions (chain operand op? limit left) := by
  induction limit generalizing left with
  | zero =>
    intro ts node rest hts h
    cases h
    exact ⟨hl, hts⟩
  | succ limit ih =>
    intro ts node rest hts h
    cases ts with
    | nil =>
      cases h
      exact ⟨hl, hts⟩
    | cons t ts =>
      unfold Parse.chain at h
      split at h
      · cases h
        exact ⟨hl, hts⟩
      · rename_i op hsome
        obtain ⟨⟨right, ts1⟩, h1, h⟩ := bind_inv h
        obtain ⟨hright, hts1⟩ := ho _ _ _ (sound_tail hts) h1
        exact ih (.binary (hop _ _ hsome) hl hright) _ _ _ hts1 h

theorem multiplicativeOp?_mem (type : TokenType) (op : ArithOp)
    (h : multiplicativeOp? type = some op) : op ∈ [ArithOp.add, .sub, .mul, .div] := by
  cases type <;> cases h <;> simp

theorem additiveOp?_mem (type : TokenType) (op : ArithOp) (h : additiveOp? type = some op) :
    op ∈ [ArithOp.add, .sub, .mul, .div] := by
  cases type <;> cases h <;> simp

theorem comparisonOp?_mem (type : TokenType) (op : CompareOp) (h : comparisonOp? type = some op) :
    op ∈ [CompareOp.lt, .gt, .le, .ge, .eq, .ne] := by
  cases type <;> cases h <;> simp

theorem Yields.term (he : Expressions e) : Expressions (term e) := by
  intro ts node rest hts h
  obtain ⟨⟨left, ts1⟩, h1, h⟩ := bind_inv h
  obtain ⟨hleft, hts1⟩ := he.unary _ _ _ hts h1
  exact he.unary.chain multiplicativeOp?_mem _ hleft _ _ _ hts1 h

theorem Yields.additive (he : Expressions e) : Expressions (additive e) := by
  intro ts node rest hts h
  obtain ⟨⟨left, ts1⟩, h1, h⟩ := bind_inv h
  obtain ⟨hleft, hts1⟩ := he.term _ _ _ hts h1
  exact he.term.chain additiveOp?_mem _ hleft _ _ _ hts1 h

theorem Yields.compared (he : Expressions e) : Expressions (compared e) := by
  intro ts node rest hts h
  obtain ⟨⟨left, ts1⟩, h1, h⟩ := bind_inv h
  obtain ⟨hleft, hts1⟩ := he.additive _ _ _ hts h1
  dsimp only at h
  split at h
  · cases h
    exact ⟨hleft, hts1⟩
  split at h
  · cases h
    exact ⟨hleft, hts1⟩
  · rename_i op hsome
    obtain ⟨⟨right, ts2⟩, h2, h⟩ := bind_inv h
    cases h
    obtain ⟨hright, hrest⟩ := he.additive _ _ _ (sound_tail hts1) h2
    exact ⟨.comparison (comparisonOp?_mem _ _ hsome) hleft hright, hrest⟩

theorem expressions_expression (depth : Nat) : Expressions (expression depth) := by
  induction depth with
  | zero =>
    intro ts node rest hts h
    cases h
  | succ depth ih => exact ih.compared

/-! ## Statements -/

/-- Where the tree read last could take an `else`, none follows. -/
def Closed (node : Node) (rest : List Token) : Prop :=
  node.endsOpen = true → startsWith .elseWord rest = false

/-- The parser reads statements. -/
abbrev Statements (p : Parser Node) : Prop :=
  Yields (fun node rest => Statement node ∧ Closed node rest) p

/-- The parser reads statements or sequences of them. -/
abbrev Bodies (p : Parser Node) : Prop :=
  Yields (fun node rest => (∀ part ∈ node.statements, Statement part) ∧ Closed node rest) p

theorem Yields.simple (he : Expressions e) : Yields (fun node _ => Simple node) (simple e) := by
  intro ts node rest hts h
  have hexpression {ts : List Token} (hts : ∀ t ∈ ts, t.Sound) (h : e ts = .ok (node, rest)) :
      Simple node ∧ ∀ t ∈ rest, t.Sound := by
    obtain ⟨hnode, hrest⟩ := he _ _ _ hts h
    exact ⟨.expression hnode, hrest⟩
  unfold Parse.simple at h
  split at h
  · rename_i t u ts'
    split at h
    · rename_i hassign
      obtain ⟨⟨value, ts1⟩, h1, h⟩ := bind_inv h
      cases h
      obtain ⟨hvalue, hrest⟩ := he _ _ _ (sound_tail (sound_tail hts)) h1
      exact ⟨.assign ((hts t List.mem_cons_self).name hassign.1) hvalue, hrest⟩
    · exact hexpression hts h
  · exact hexpression hts h

theorem Yields.statements (hs : Statements s) (stop : Option TokenType) (limit : Nat) :
    Yields (fun nodes _ => ∀ node ∈ nodes, Statement node) (statements s stop limit) := by
  induction limit with
  | zero =>
    intro ts nodes rest hts h
    cases h
    exact ⟨by simp, hts⟩
  | succ limit ih =>
    intro ts nodes rest hts h
    have hdrop : ∀ t ∈ ts.dropWhile (·.type == .semicolon), t.Sound :=
      fun t ht => hts t ((List.dropWhile_sublist _).subset ht)
    unfold Parse.statements at h
    split at h
    · cases h
      exact ⟨by simp, by simp⟩
    · rename_i t ts' hcons
      rw [hcons] at hdrop
      split at h
      · cases h
        exact ⟨by simp, hdrop⟩
      · obtain ⟨⟨first, ts1⟩, h1, h⟩ := bind_inv h
        obtain ⟨⟨others, ts2⟩, h2, h⟩ := bind_inv h
        cases h
        obtain ⟨⟨hfirst, -⟩, hts1⟩ := hs _ _ _ hdrop h1
        obtain ⟨hothers, hrest⟩ := ih _ _ _ hts1 h2
        exact ⟨by simpa using ⟨hfirst, hothers⟩, hrest⟩

theorem Yields.block (hs : Statements s) : Bodies (block s) := by
  intro ts node rest hts h
  unfold Parse.block at h
  split at h
  · obtain ⟨⟨body, ts1⟩, h1, h⟩ := bind_inv h
    obtain ⟨⟨t, ts2⟩, h2, h⟩ := bind_inv h
    cases h
    obtain ⟨hbody, hts1⟩ := hs.statements _ _ _ _ _ (sound_tail hts) h1
    exact ⟨⟨hbody, fun hopen => by cases hopen⟩, (yields_expect _ _ _ _ hts1 h2).2⟩
  · obtain ⟨⟨hnode, hclosed⟩, hrest⟩ := hs _ _ _ hts h
    refine ⟨⟨fun part hpart => ?_, hclosed⟩, hrest⟩
    rw [hnode.statements_eq, List.mem_singleton] at hpart
    exact hpart ▸ hnode

theorem Yields.optional {p : Parser Node} {P : Node → Prop} (hp : Yields (fun node _ => P node) p)
    (stop : TokenType) :
    Yields (fun node _ => node = .missing ∨ P node) (optional stop p) := by
  intro ts node rest hts h
  unfold Parse.optional at h
  split at h
  · cases h
    exact ⟨.inl rfl, hts⟩
  · obtain ⟨hnode, hrest⟩ := hp _ _ _ hts h
    exact ⟨.inr hnode, hrest⟩

theorem Yields.branch (he : Expressions e) (hs : Statements s) : Statements (branch e s) := by
  intro ts node rest hts h
  obtain ⟨⟨condition, ts1⟩, h1, h⟩ := bind_inv h
  obtain ⟨⟨thenPart, ts2⟩, h2, h⟩ := bind_inv h
  obtain ⟨hcondition, hts1⟩ := he.enclosed _ _ _ hts h1
  obtain ⟨⟨hthen, hclosed⟩, hts2⟩ := hs.block _ _ _ hts1 h2
  dsimp only at h
  split at h
  · rename_i helse
    obtain ⟨⟨elsePart, ts3⟩, h3, h⟩ := bind_inv h
    cases h
    obtain ⟨⟨helse', hclosed'⟩, hrest⟩ := hs.block _ _ _ (sound_tail hts2) h3
    have hopen : thenPart.endsOpen = false := by
      by_contra hne
      have hnone := hclosed (by simpa using hne)
      rw [helse] at hnone
      cases hnone
    refine ⟨⟨.branchElse hcondition hthen helse' hopen, fun hends => hclosed' ?_⟩, hrest⟩
    rwa [endsOpen_branch (ne_missing_of_statements helse')] at hends
  · rename_i helse
    cases h
    exact ⟨⟨.branch hcondition hthen, fun _ => by simpa using helse⟩, hts2⟩

theorem Yields.loop (he : Expressions e) (hs : Statements s) : Statements (loop e s) := by
  intro ts node rest hts h
  obtain ⟨⟨t1, ts1⟩, h1, h⟩ := bind_inv h
  obtain ⟨⟨start, ts2⟩, h2, h⟩ := bind_inv h
  obtain ⟨⟨t3, ts3⟩, h3, h⟩ := bind_inv h
  obtain ⟨⟨condition, ts4⟩, h4, h⟩ := bind_inv h
  obtain ⟨⟨t5, ts5⟩, h5, h⟩ := bind_inv h
  obtain ⟨⟨step, ts6⟩, h6, h⟩ := bind_inv h
  obtain ⟨⟨t7, ts7⟩, h7, h⟩ := bind_inv h
  obtain ⟨⟨body, ts8⟩, h8, h⟩ := bind_inv h
  cases h
  obtain ⟨hstart, hts2⟩ := he.simple.optional _ _ _ _ (yields_expect _ _ _ _ hts h1).2 h2
  obtain ⟨hcondition, hts4⟩ := he.optional _ _ _ _ (yields_expect _ _ _ _ hts2 h3).2 h4
  obtain ⟨hstep, hts6⟩ := he.simple.optional _ _ _ _ (yields_expect _ _ _ _ hts4 h5).2 h6
  obtain ⟨⟨hbody, hclosed⟩, hrest⟩ := hs.block _ _ _ (yields_expect _ _ _ _ hts6 h7).2 h8
  exact ⟨⟨.loop hstart hcondition hstep hbody, hclosed⟩, hrest⟩

/-- Names of parameters, none of them twice. -/
structure AreParameters (params : List String) : Prop where
  names : ∀ x ∈ params, IsName x
  distinct : params.Nodup

theorem AreParameters.append {params : List String} {x : String} (h : AreParameters params)
    (hx : IsName x) (hnew : x ∉ params) : AreParameters (params ++ [x]) := by
  refine ⟨fun y hy => ?_, ?_⟩
  · rcases List.mem_append.mp hy with hy | hy
    · exact h.names y hy
    · exact List.mem_singleton.mp hy ▸ hx
  · refine List.nodup_append.mpr ⟨h.distinct, by simp, fun y hy z hz => ?_⟩
    rw [List.mem_singleton.mp hz]
    rintro rfl
    exact hnew hy

theorem yields_parameters (f : String) (more : Nat) {seen : List String}
    (hseen : AreParameters seen) :
    Yields (fun params _ => AreParameters params) (parameters f more seen) := by
  induction more generalizing seen with
  | zero =>
    intro ts params rest hts h
    unfold parameters at h
    obtain ⟨⟨t, ts1⟩, h1, h⟩ := bind_inv h
    obtain ⟨⟨htype, ht⟩, hts1⟩ := yields_expect _ _ _ _ hts h1
    dsimp only at h
    split at h
    · cases h
    · rename_i hnew
      cases h
      exact ⟨hseen.append (ht.name htype) (by simpa using hnew), hts1⟩
  | succ more ih =>
    intro ts params rest hts h
    unfold parameters at h
    obtain ⟨⟨t, ts1⟩, h1, h⟩ := bind_inv h
    obtain ⟨⟨htype, ht⟩, hts1⟩ := yields_expect _ _ _ _ hts h1
    dsimp only at h
    split at h
    · cases h
    · rename_i hnew
      have hseen' := hseen.append (ht.name htype) (by simpa using hnew)
      split at h
      · exact ih hseen' _ _ _ (sound_tail hts1) h
      · cases h
        exact ⟨hseen', hts1⟩

theorem Yields.definition (hs : Statements s) : Statements (definition s) := by
  intro ts node rest hts h
  obtain ⟨⟨name, ts1⟩, h1, h⟩ := bind_inv h
  obtain ⟨⟨t2, ts2⟩, h2, h⟩ := bind_inv h
  obtain ⟨⟨hname, hsound⟩, hts1⟩ := yields_expect _ _ _ _ hts h1
  have hts2 := (yields_expect _ _ _ _ hts1 h2).2
  dsimp only at h
  split at h
  all_goals
    obtain ⟨⟨params, ts3⟩, h3, h⟩ := bind_inv h
    have hparams : AreParameters params ∧ ∀ t ∈ ts3, t.Sound := by
      first
      | exact yields_parameters _ _ ⟨by simp, by simp⟩ _ _ _ hts2 h3
      | cases h3
        exact ⟨⟨by simp, by simp⟩, hts2⟩
    obtain ⟨⟨t4, ts4⟩, h4, h⟩ := bind_inv h
    obtain ⟨⟨body, ts5⟩, h5, h⟩ := bind_inv h
    cases h
    obtain ⟨⟨hbody, hclosed⟩, hrest⟩ := hs.block _ _ _ (yields_expect _ _ _ _ hparams.2 h4).2 h5
    exact ⟨⟨.define (hsound.name hname) hparams.1.names hparams.1.distinct hbody, hclosed⟩, hrest⟩

theorem statements_statement (depth : Nat) : Statements (statement depth) := by
  induction depth with
  | zero =>
    intro ts node rest hts h
    cases h
  | succ depth ih =>
    intro ts node rest hts h
    have he := expressions_expression depth
    cases ts with
    | nil => cases h
    | cons t ts =>
      unfold Parse.statement at h
      split at h
      · exact he.branch ih _ _ _ (sound_tail hts) h
      · exact he.loop ih _ _ _ (sound_tail hts) h
      · exact ih.definition _ _ _ (sound_tail hts) h
      · obtain ⟨hnode, hrest⟩ := (expressions_expression _).simple _ _ _ hts h
        exact ⟨⟨.simple hnode, fun hopen => by cases hnode.endsOpen_eq.symm.trans hopen⟩, hrest⟩

end Parse

/-- Whatever parses is canonical. -/
theorem canonical_of_parse (h : parse source = .ok node) : node.Canonical := by
  obtain ⟨ts, hts, h⟩ := bind_inv h
  obtain ⟨⟨body, rest⟩, h1, h⟩ := bind_inv h
  cases h
  have hsound := sound_tokensFrom _ _ hts
  exact .sequence ((Parse.statements_statement _).statements _ _ _ _ _ hsound h1).1

/-! ## Statements only where one may stand -/

namespace Node

variable {node : Node}

theorem Expression.isExpression (h : Expression node) : node.isExpression = true := by
  induction h with
  | binary _ _ _ hl hr | comparison _ _ _ hl hr =>
    exact (isExpression_iff _).mpr ⟨rfl, by simp [children, hl, hr]⟩
  | print _ he => exact (isExpression_iff _).mpr ⟨rfl, by simp [children, he]⟩
  | randomBetween _ _ hl hh => exact (isExpression_iff _).mpr ⟨rfl, by simp [children, hl, hh]⟩
  | call _ _ ih | array _ ih => exact (isExpression_iff _).mpr ⟨rfl, ih⟩
  | _ => rfl

theorem Simple.isStatement (h : Simple node) : node.isStatement = true := by
  cases h with
  | expression he => exact isStatement_of_isExpression he.isExpression
  | assign _ he => exact he.isExpression

theorem isStatement_of_statements (h : ∀ part ∈ node.statements, part.isStatement = true) :
    node.isStatement = true := by
  cases node with
  | sequence nodes => exact (areStatements_iff nodes).mpr h
  | _ => exact h _ List.mem_cons_self

theorem Statement.isStatement (h : Statement node) : node.isStatement = true := by
  induction h with
  | simple h => exact h.isStatement
  | branch hc _ ht =>
    rw [Node.isStatement, hc.isExpression, isStatement_of_statements ht]
    rfl
  | branchElse hc _ _ _ ht he =>
    rw [Node.isStatement, hc.isExpression, isStatement_of_statements ht,
      isStatement_of_statements he]
    rfl
  | loop hstart hcondition hstep _ hbody =>
    have hs : ∀ {node : Node}, node = .missing ∨ Simple node → node.isStatement = true := by
      rintro node (rfl | h)
      · rfl
      · exact h.isStatement
    have hc : ∀ {node : Node}, node = .missing ∨ Expression node → node.isExpression = true := by
      rintro node (rfl | h)
      · rfl
      · exact h.isExpression
    rw [Node.isStatement, hs hstart, hc hcondition, hs hstep, isStatement_of_statements hbody]
    rfl
  | define _ _ _ _ hbody =>
    rw [Node.isStatement]
    exact isStatement_of_statements hbody

end Node

/-- The parser puts statements only where one may stand. -/
theorem isStatement_of_parse (h : parse source = .ok node) : node.isStatement = true := by
  cases canonical_of_parse h with
  | sequence hstatements =>
    exact (Node.areStatements_iff _).mpr fun part hpart => (hstatements part hpart).isStatement

end DualEngine
