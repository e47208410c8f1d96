import DualEngine.Proofs.Spelling

/-! # Writing trees

The source text of a tree. Semicolons stand between statements only, braces around sequences only,
and parentheses only around an operand that binds less tightly than its place asks for: operators of
one level group to the left, and a comparison is no operand of a comparison. Of a canonical tree
every piece is one that the scanner can give.
-/
namespace DualEngine

/-- How a token is written whose type determines it. -/
def TokenType.spelling : TokenType → String
  | .ifWord => "if"
  | .elseWord => "else"
  | .forWord => "for"
  | .defWord => "def"
  | .printWord => "print"
  | .randomWord => "random"
  | .trueWord => "true"
  | .falseWord => "false"
  | .leftParen => "("
  | .rightParen => ")"
  | .leftBrace => "\x7b"
  | .rightBrace => "\x7d"
  | .leftBracket => "["
  | .rightBracket => "]"
  | .comma => ","
  | .semicolon => ";"
  | .star => "*"
  | .slash => "/"
  | .equal => "=="
  | .notEqual => "!="
  | .lessEqual => "<="
  | .greaterEqual => ">="
  | .plusPlus => "++"
  | .minusMinus => "--"
  | .assign => "="
  | .less => "<"
  | .greater => ">"
  | .plus => "+"
  | .minus => "-"
  | .string | .number | .float | .identifier => ""

/-- The tokens that are spelled in one way only. -/
def TokenType.isFixed : TokenType → Bool
  | .string | .number | .float | .identifier => false
  | _ => true

def ArithOp.token : ArithOp → TokenType
  | .add => .plus
  | .sub => .minus
  | .mul => .star
  | .div | .other _ => .slash

def CompareOp.token : CompareOp → TokenType
  | .lt => .less
  | .gt => .greater
  | .le => .lessEqual
  | .ge => .greaterEqual
  | .eq => .equal
  | .ne | .other _ => .notEqual

/-- How tightly an operator binds; a comparison binds at level zero. -/
def ArithOp.level : ArithOp → Nat
  | .add | .sub => 1
  | .mul | .div | .other _ => 2

namespace Piece

def fixed (type : TokenType) : Piece := ⟨type, type.spelling⟩

def name (x : String) : Piece := ⟨.identifier, x⟩

/-- A literal with its sign. -/
def signed (negative : Bool) (literal : Piece) : List Piece :=
  if negative then [fixed .minus, literal] else [literal]

/-- Parentheses where they are needed. -/
def enclose (needed : Bool) (pieces : List Piece) : List Piece :=
  if needed then fixed .leftParen :: (pieces ++ [fixed .rightParen]) else pieces

/-- Names with commas between them. -/
def nameList : List String → List Piece
  | [] => []
  | x :: rest => name x :: rest.flatMap fun y => [fixed .comma, name y]

theorem valid_fixed {type : TokenType} (h : type.isFixed = true) : (fixed type).Valid := by
  have hword {text : String} {c : Char} {cs : List Char} (htext : String.ofList (c :: cs) = text)
      (htype : wordType text = type) (hc : Text.isNameStart c = true)
      (hcs : cs.all Text.isNamePart = true) : Valid ⟨type, text⟩ := by
    subst htext
    exact htype ▸ .word hc (List.all_eq_true.mp hcs)
  cases type with
  | ifWord | elseWord | forWord | defWord | printWord | randomWord | trueWord | falseWord =>
    exact hword rfl (by decide) (by decide) (by decide)
  | leftParen | rightParen | leftBrace | rightBrace | leftBracket | rightBracket | comma
  | semicolon | star | slash | assign | less | greater | plus | minus =>
    exact .single (by rfl)
  | equal | notEqual | lessEqual | greaterEqual | plusPlus | minusMinus => exact .pair (by rfl)
  | string | number | float | identifier => cases h

theorem valid_name {x : String} (hx : IsName x) : (name x).Valid := by
  obtain ⟨c, cs, hlist, hc⟩ := hx.start
  have htext : String.ofList (c :: cs) = x := by rw [← hlist, String.ofList_toList]
  have hparts : ∀ d ∈ cs, Text.isNamePart d = true := fun d hd => hx.part d (by simp [hlist, hd])
  have hvalid := Valid.word hc hparts
  rwa [htext, hx.free] at hvalid

theorem valid_nameList {xs : List String} (h : ∀ x ∈ xs, IsName x) :
    ∀ p ∈ nameList xs, p.Valid := by
  intro p hp
  cases xs with
  | nil => cases hp
  | cons x rest =>
    simp only [nameList, List.mem_cons, List.mem_flatMap, List.not_mem_nil, or_false] at hp
    rcases hp with rfl | ⟨y, hy, rfl | rfl⟩
    · exact valid_name (h x List.mem_cons_self)
    · exact valid_fixed rfl
    · exact valid_name (h y (List.mem_cons_of_mem _ hy))

end Piece

/-! ## Whole numbers -/

namespace Text

theorem decimalValue?_digitChar {d : Nat} (hd : d < 10) : decimalValue? d.digitChar = some d := by
  interval_cases d <;> decide

theorem isSome_decimalValue?_toDigits (n : Nat) :
    ∀ c ∈ Nat.toDigits 10 n, (decimalValue? c).isSome = true := by
  induction n using Nat.strong_induction_on with
  | h n ih =>
    intro c hc
    rw [Nat.toDigits_eq_if (by decide)] at hc
    split at hc
    · rename_i hlt
      rw [List.mem_singleton.mp hc, decimalValue?_digitChar hlt]
      rfl
    · rcases List.mem_append.mp hc with hc | hc
      · exact ih (n / 10) (by omega) c hc
      · rw [List.mem_singleton.mp hc, decimalValue?_digitChar (Nat.mod_lt _ (by decide))]
        rfl

/-- The digits of a number stand for it. -/
theorem decimal?_toDigits (n : Nat) : decimal? (Nat.toDigits 10 n) = some n := by
  induction n using Nat.strong_induction_on with
  | h n ih =>
    rw [Nat.toDigits_eq_if (by decide)]
    split
    · rename_i hlt
      simp [decimal?, decimalValue?_digitChar hlt]
    · have hhead := ih (n / 10) (by omega)
      unfold decimal? at hhead ⊢
      rw [List.foldl_append, hhead]
      simp [decimalValue?_digitChar (Nat.mod_lt n (by decide : 10 > 0))]
      omega

theorem isDigit_toDigits (n : Nat) : ∀ c ∈ Nat.toDigits 10 n, isDigit c = true := by
  intro c hc
  rw [isDigit, isSome_decimalValue?_toDigits n c hc]
  rfl

end Text

theorem integerLiteral_repr {n : Nat} (h : n.repr.length ≤ maxDigits) :
    Parse.integerLiteral n.repr = .ok n := by
  have hall : (Nat.toDigits 10 n).takeWhile (fun c => (Text.decimalValue? c).isSome) =
      Nat.toDigits 10 n :=
    List.takeWhile_eq_self_iff.mpr (Text.isSome_decimalValue?_toDigits n)
  rw [← String.length_toList, Nat.toList_repr] at h
  unfold Parse.integerLiteral
  rw [Nat.toList_repr, hall, Text.decimal?_toDigits, if_neg (by omega)]

/-! ## The pieces of a tree -/

namespace Node
open Piece

variable {nodes : List Node} {node : Node} {between : TokenType}

/-- How tightly the outermost operator of an expression binds. -/
def level : Node → Nat
  | .comparison .. => 0
  | .binary _ op _ => op.level
  | _ => 3

section
variable (spell : Float → Bool × String)

mutual

/-- A tree in pieces; `spell` says how a float is written. -/
def pieces : Node → List Piece
  | .sequence nodes => fixed .leftBrace :: (separated .semicolon nodes ++ [fixed .rightBrace])
  | .number n => signed (n < 0) ⟨.number, n.natAbs.repr⟩
  | .float x => signed (spell x).1 ⟨.float, (spell x).2⟩
  | .string s => [⟨.string, s⟩]
  | .boolean b => [fixed (if b then .trueWord else .falseWord)]
  | .identifier x => [name x]
  | .binary left op right =>
    enclose (left.level < op.level) left.pieces ++
      fixed op.token :: enclose (right.level < op.level + 1) right.pieces
  | .comparison left op right =>
    enclose (left.level < 1) left.pieces ++
      fixed op.token :: enclose (right.level < 1) right.pieces
  | .assign x e => name x :: fixed .assign :: e.pieces
  | .increment x => [name x, fixed .plusPlus]
  | .decrement x => [name x, fixed .minusMinus]
  | .branch condition thenPart elsePart =>
    fixed .ifWord :: fixed .leftParen :: (condition.pieces ++
      fixed .rightParen :: (thenPart.pieces ++
        if elsePart.isMissing then [] else fixed .elseWord :: elsePart.pieces))
  | .loop start condition step body =>
    fixed .forWord :: fixed .leftParen :: (start.pieces ++
      fixed .semicolon :: (condition.pieces ++
        fixed .semicolon :: (step.pieces ++ fixed .rightParen :: body.pieces)))
  | .print e => fixed .printWord :: fixed .leftParen :: (e.pieces ++ [fixed .rightParen])
  | .random low high =>
    fixed .randomWord :: fixed .leftParen ::
      ((if low.isMissing then [] else low.pieces ++ fixed .comma :: high.pieces) ++
        [fixed .rightParen])
  | .define f params body =>
    fixed .defWord :: name f :: fixed .leftParen ::
      (nameList params ++ fixed .rightParen :: body.pieces)
  | .call f args =>
    name f :: fixed .leftParen :: (separated .comma args ++ [fixed .rightParen])
  | .array elements =>
    fixed .leftBracket :: (separated .comma elements ++ [fixed .rightBracket])
  | .missing | .bare => []

/-- Trees with a token between them. -/
def separated (between : TokenType) : List Node → List Piece
  | [] => []
  | node :: rest => node.pieces ++ following between rest

/-- Further trees, each after the token. -/
def following (between : TokenType) : List Node → List Piece
  | [] => []
  | node :: rest => fixed between :: (node.pieces ++ following between rest)

end

/-- An expression where an operand of the level may stand. -/
def operand (level : Nat) (node : Node) : List Piece :=
  enclose (node.level < level) (node.pieces spell)

/-- The pieces of a submission. -/
def script : Node → List Piece
  | .sequence nodes => separated spell .semicolon nodes
  | node => node.pieces spell

/-- The source text of a submission. -/
def source (node : Node) : String := String.ofList (spaced (node.script spell))

/-- All literals of the tree can be written: a whole number is no longer than the parser reads, and
the spelling of a float stands for it. -/
structure Literal (node : Node) : Prop where
  number : ∀ n : Int, .number n ∈ node.subtrees → n.natAbs.repr.length ≤ maxDigits
  float : ∀ x : Float, .float x ∈ node.subtrees → Spells (spell x).1 (spell x).2 x

end

variable {spell : Float → Bool × String}

theorem Literal.child {child : Node} (h : node.Literal spell) (hc : child ∈ node.children) :
    child.Literal spell :=
  ⟨fun n hn => h.number n (subtrees_subset hc hn), fun x hx => h.float x (subtrees_subset hc hx)⟩

theorem Expression.isMissing_eq (h : Expression node) : node.isMissing = false := by
  cases h <;> rfl

theorem pieces_binary (left right : Node) (op : ArithOp) :
    (Node.binary left op right).pieces spell =
      left.operand spell op.level ++ fixed op.token :: right.operand spell (op.level + 1) := rfl

theorem pieces_comparison (left right : Node) (op : CompareOp) :
    (Node.comparison left op right).pieces spell =
      left.operand spell 1 ++ fixed op.token :: right.operand spell 1 := rfl

theorem mem_following {p : Piece} (h : p ∈ following spell between nodes) :
    p = fixed between ∨ ∃ node ∈ nodes, p ∈ node.pieces spell := by
  induction nodes with
  | nil => cases h
  | cons node rest ih =>
    rw [following, List.mem_cons, List.mem_append] at h
    rcases h with h | h | h
    · exact .inl h
    · exact .inr ⟨node, List.mem_cons_self, h⟩
    · rcases ih h with h | ⟨other, hother, h⟩
      · exact .inl h
      · exact .inr ⟨other, List.mem_cons_of_mem _ hother, h⟩

theorem mem_separated {p : Piece} (h : p ∈ separated spell between nodes) :
    p = fixed between ∨ ∃ node ∈ nodes, p ∈ node.pieces spell := by
  cases nodes with
  | nil => cases h
  | cons node rest =>
    rw [separated, List.mem_append] at h
    rcases h with h | h
    · exact .inr ⟨node, List.mem_cons_self, h⟩
    · rcases mem_following h with h | ⟨other, hother, h⟩
      · exact .inl h
      · exact .inr ⟨other, List.mem_cons_of_mem _ hother, h⟩

/-! ## Every piece can be scanned -/

attribute [local simp] pieces

/-- A piece of an expression: the scanner can give it, and it assigns nothing. -/
structure Plain (p : Piece) : Prop where
  valid : p.Valid
  ne_assign : p.type ≠ .assign

theorem plain_fixed {type : TokenType} (h : type.isFixed = true) (hne : type ≠ .assign) :
    Plain (fixed type) :=
  ⟨valid_fixed h, hne⟩

theorem plain_name {x : String} (hx : IsName x) : Plain (name x) :=
  ⟨valid_name hx, by simp [name]⟩

theorem plain_signed {negative : Bool} {literal : Piece} (h : Plain literal) :
    ∀ p ∈ signed negative literal, Plain p := by
  unfold signed
  split
  · simpa using ⟨plain_fixed rfl (by decide), h⟩
  · simpa using h

theorem plain_number (n : Nat) : Plain ⟨.number, n.repr⟩ := by
  have hne : Nat.toDigits 10 n ≠ [] := Nat.toDigits_ne_nil
  obtain ⟨c, cs, hcs⟩ := List.exists_cons_of_ne_nil hne
  have htext : String.ofList (c :: cs) = n.repr := by
    rw [← hcs, ← Nat.toList_repr, String.ofList_toList]
  have hdigits : ∀ d ∈ c :: cs, Text.isDigit d = true := hcs ▸ Text.isDigit_toDigits n
  exact ⟨htext ▸ .number hdigits, by simp⟩

theorem plain_operand (k : Nat) (h : ∀ p ∈ node.pieces spell, Plain p) :
    ∀ p ∈ node.operand spell k, Plain p := by
  unfold operand enclose
  split
  · simp only [List.forall_mem_cons, List.forall_mem_append]
    exact ⟨plain_fixed rfl (by decide), h, plain_fixed rfl (by decide), by simp⟩
  · exact h

theorem plain_separated (h : ∀ node ∈ nodes, ∀ p ∈ node.pieces spell, Plain p) :
    ∀ p ∈ separated spell .comma nodes, Plain p := by
  intro p hp
  rcases mem_separated hp with rfl | ⟨node, hnode, hp⟩
  · exact plain_fixed rfl (by decide)
  · exact h node hnode p hp

theorem Expression.plain (h : Expression node) (hl : node.Literal spell) :
    ∀ p ∈ node.pieces spell, Plain p := by
  induction h with
  | number n => exact plain_signed (plain_number _)
  | @float x negative text h =>
    exact plain_signed ⟨.float (hl.float x (mem_subtrees_self _)).form, by simp⟩
  | string s => simpa using ⟨Valid.string s, by simp⟩
  | boolean b => cases b <;> simpa using plain_fixed rfl (by decide)
  | identifier hx => simpa using plain_name hx
  | @binary left right op _ _ _ ihl ihr =>
    rw [pieces_binary]
    simp only [List.forall_mem_cons, List.forall_mem_append]
    refine ⟨plain_operand _ (ihl (hl.child (by simp [children]))), ?_,
      plain_operand _ (ihr (hl.child (by simp [children])))⟩
    cases op <;> exact plain_fixed rfl (by simp [ArithOp.token])
  | @comparison left right op _ _ _ ihl ihr =>
    rw [pieces_comparison]
    simp only [List.forall_mem_cons, List.forall_mem_append]
    refine ⟨plain_operand _ (ihl (hl.child (by simp [children]))), ?_,
      plain_operand _ (ihr (hl.child (by simp [children])))⟩
    cases op <;> exact plain_fixed rfl (by simp [CompareOp.token])
  | increment hx | decrement hx =>
    simpa using ⟨plain_name hx, plain_fixed rfl (by decide)⟩
  | print _ ih =>
    simp only [pieces, List.forall_mem_cons, List.forall_mem_append]
    exact ⟨plain_fixed rfl (by decide), plain_fixed rfl (by decide),
      ih (hl.child (by simp [children])), plain_fixed rfl (by decide), by simp⟩
  | random =>
    simp only [pieces, isMissing, if_true, List.nil_append, List.forall_mem_cons]
    exact ⟨plain_fixed rfl (by decide), plain_fixed rfl (by decide), plain_fixed rfl (by decide),
      by simp⟩
  | @randomBetween low high hlow _ ihl ihh =>
    rw [pieces, if_neg (by rw [hlow.isMissing_eq]; simp)]
    simp only [List.forall_mem_cons, List.forall_mem_append]
    exact ⟨plain_fixed rfl (by decide), plain_fixed rfl (by decide),
      ⟨ihl (hl.child (by simp [children])), plain_fixed rfl (by decide),
        ihh (hl.child (by simp [children]))⟩, plain_fixed rfl (by decide), by simp⟩
  | call hf _ ih =>
    simp only [pieces, List.forall_mem_cons, List.forall_mem_append]
    exact ⟨plain_name hf, plain_fixed rfl (by decide),
      plain_separated fun arg harg => ih arg harg (hl.child harg), plain_fixed rfl (by decide),
      by simp⟩
  | array _ ih =>
    simp only [pieces, List.forall_mem_cons, List.forall_mem_append]
    exact ⟨plain_fixed rfl (by decide),
      plain_separated fun element helement => ih element helement (hl.child helement),
      plain_fixed rfl (by decide), by simp⟩

theorem Expression.valid (h : Expression node) (hl : node.Literal spell) :
    ∀ p ∈ node.pieces spell, p.Valid :=
  fun p hp => (h.plain hl p hp).valid

theorem Simple.valid (h : Simple node) (hl : node.Literal spell) :
    ∀ p ∈ node.pieces spell, p.Valid := by
  cases h with
  | expression he => exact he.valid hl
  | assign hx he =>
    simp only [pieces, List.forall_mem_cons]
    exact ⟨valid_name hx, valid_fixed rfl, he.valid (hl.child (by simp [children]))⟩

theorem valid_missing_or {P : Node → Prop} (h : node = .missing ∨ P node)
    (hvalid : P node → ∀ p ∈ node.pieces spell, p.Valid) : ∀ p ∈ node.pieces spell, p.Valid := by
  rcases h with rfl | h
  · simp
  · exact hvalid h

theorem valid_separated (h : ∀ node ∈ nodes, ∀ p ∈ node.pieces spell, p.Valid) :
    ∀ p ∈ separated spell .semicolon nodes, p.Valid := by
  intro p hp
  rcases mem_separated hp with rfl | ⟨node, hnode, hp⟩
  · exact valid_fixed rfl
  · exact h node hnode p hp

/-- A body is as valid as its statements. -/
theorem valid_body {body : Node} (h : ∀ node ∈ body.statements, ∀ p ∈ node.pieces spell, p.Valid) :
    ∀ p ∈ body.pieces spell, p.Valid := by
  cases body with
  | sequence nodes =>
    simp only [pieces, List.forall_mem_cons, List.forall_mem_append]
    exact ⟨valid_fixed rfl, valid_separated h, valid_fixed rfl, by simp⟩
  | _ => exact h _ List.mem_cons_self

theorem Literal.statement {body : Node} (h : body.Literal spell) (hnode : node ∈ body.statements) :
    node.Literal spell := by
  cases body with
  | sequence nodes => exact h.child hnode
  | _ => exact List.mem_singleton.mp hnode ▸ h

theorem Statement.valid (h : Statement node) (hl : node.Literal spell) :
    ∀ p ∈ node.pieces spell, p.Valid := by
  induction h with
  | simple h => exact h.valid hl
  | branch hc ht iht =>
    have hbody := valid_body fun part hpart =>
      iht part hpart ((hl.child (by simp [children])).statement hpart)
    simp only [pieces, isMissing, if_true, List.append_nil, List.forall_mem_cons,
      List.forall_mem_append]
    exact ⟨valid_fixed rfl, valid_fixed rfl, hc.valid (hl.child (by simp [children])),
      valid_fixed rfl, hbody⟩
  | branchElse hc ht he hclosed iht ihe =>
    have hbody := valid_body fun part hpart =>
      iht part hpart ((hl.child (by simp [children])).statement hpart)
    have helse := valid_body fun part hpart =>
      ihe part hpart ((hl.child (by simp [children])).statement hpart)
    rw [pieces, if_neg (by simpa using fun h => ne_missing_of_statements he (eq_missing h))]
    simp only [List.forall_mem_cons, List.forall_mem_append]
    exact ⟨valid_fixed rfl, valid_fixed rfl, hc.valid (hl.child (by simp [children])),
      valid_fixed rfl, hbody, valid_fixed rfl, helse⟩
  | loop hstart hcondition hstep hbody ih =>
    have hinner := valid_body fun part hpart =>
      ih part hpart ((hl.child (by simp [children])).statement hpart)
    simp only [pieces, List.forall_mem_cons, List.forall_mem_append]
    exact ⟨valid_fixed rfl, valid_fixed rfl,
      valid_missing_or hstart fun h => h.valid (hl.child (by simp [children])), valid_fixed rfl,
      valid_missing_or hcondition fun h => h.valid (hl.child (by simp [children])), valid_fixed rfl,
      valid_missing_or hstep fun h => h.valid (hl.child (by simp [children])), valid_fixed rfl,
      hinner⟩
  | define hf hparams hdistinct hbody ih =>
    have hinner := valid_body fun part hpart =>
      ih part hpart ((hl.child (by simp [children])).statement hpart)
    simp only [pieces, List.forall_mem_cons, List.forall_mem_append]
    exact ⟨valid_fixed rfl, valid_name hf, valid_fixed rfl, valid_nameList hparams,
      valid_fixed rfl, hinner⟩

end Node
end DualEngine
