import DualEngine.Proofs.Writing

/-! # Reading expressions back

The parser reads the pieces of an expression as that expression. It ends where a token follows that
cannot continue it at its level, so each lemma says which tokens may follow.
-/
namespace DualEngine

/-- The tightest level that the token still ends: no operand of a lower level goes on with it. -/
def TokenType.ends? : TokenType → Option Nat
  | .semicolon | .comma | .rightParen | .rightBrace | .rightBracket | .elseWord => some 0
  | .less | .greater | .lessEqual | .greaterEqual | .equal | .notEqual => some 1
  | .plus | .minus => some 2
  | .star | .slash => some 3
  | _ => none

/-- The tokens that an expression may start with. -/
def TokenType.opens : TokenType → Bool
  | .number | .float | .string | .trueWord | .falseWord | .printWord | .randomWord | .identifier
  | .leftBracket | .leftParen | .minus => true
  | _ => false

namespace Parse
open Node Piece

variable {nodes : List Node} {ps : List Piece} {rest ts : List Token} {k : Nat} {node : Node}
  {literal : Piece} {t : Token} {type : TokenType}

/-! ## Tokens that spell pieces -/

/-- The tokens start with the pieces, and the rest follows. -/
def Spelled : List Piece → List Token → List Token → Prop
  | [], ts, rest => ts = rest
  | p :: ps, ts, rest => ∃ t us, ts = t :: us ∧ t.piece = p ∧ Spelled ps us rest

theorem spelled_append {qs : List Piece} :
    Spelled (ps ++ qs) ts rest ↔ ∃ us, Spelled ps ts us ∧ Spelled qs us rest := by
  induction ps generalizing ts with
  | nil => simp [Spelled]
  | cons p ps ih =>
    simp only [List.cons_append, Spelled, ih]
    constructor
    · rintro ⟨t, us, rfl, ht, vs, hps, hqs⟩
      exact ⟨vs, ⟨t, us, rfl, ht, hps⟩, hqs⟩
    · rintro ⟨vs, ⟨t, us, rfl, ht, hps⟩, hqs⟩
      exact ⟨t, us, rfl, ht, vs, hps, hqs⟩

theorem spelled_map (ts : List Token) : Spelled (ts.map Token.piece) ts [] := by
  induction ts with
  | nil => rfl
  | cons t ts ih => exact ⟨t, ts, rfl, rfl, ih⟩

theorem Spelled.length (h : Spelled ps ts rest) : ts.length = ps.length + rest.length := by
  induction ps generalizing ts with
  | nil =>
    rw [show ts = rest from h]
    simp
  | cons p ps ih =>
    obtain ⟨t, us, rfl, -, h⟩ := h
    simp only [List.length_cons, ih h]
    omega

theorem type_of_fixed (h : t.piece = fixed type) : t.type = type :=
  congrArg Piece.type h

theorem type_of_name {x : String} (h : t.piece = name x) : t.type = .identifier ∧ t.value = x :=
  ⟨congrArg Piece.type h, congrArg Piece.value h⟩

/-- Nothing follows, or a token that ends an expression of the level. -/
def Stops (level : Nat) (rest : List Token) : Prop :=
  ∀ t ∈ rest.head?, ∃ l, t.type.ends? = some l ∧ l ≤ level

theorem Stops.mono {l : Nat} (h : Stops k rest) (hkl : k ≤ l) : Stops l rest := by
  intro t ht
  obtain ⟨m, hm, hmk⟩ := h t ht
  exact ⟨m, hm, by omega⟩

theorem stops_fixed {l : Nat} (ht : t.piece = fixed type) (hends : type.ends? = some l)
    (hl : l ≤ k) (rest : List Token) : Stops k (t :: rest) := by
  intro u hu
  cases hu
  exact ⟨l, type_of_fixed ht ▸ hends, hl⟩

theorem Stops.startsWith (h : Stops k rest) (htype : type.ends? = none) :
    startsWith type rest = false := by
  cases rest with
  | nil => rfl
  | cons t rest =>
    obtain ⟨l, hl, -⟩ := h t rfl
    rw [Parse.startsWith, beq_eq_false_iff_ne]
    rintro rfl
    cases htype.symm.trans hl

/-- The parser reads the pieces as `a` where the right tokens follow. -/
def Takes {α : Type} (follow : List Token → Prop) (p : Parser α) (ps : List Piece) (a : α) : Prop :=
  ∀ ts rest, Spelled ps ts rest → follow rest → p ts = .ok (a, rest)

theorem expect_fixed (h : t.piece = fixed type) (ts : List Token) :
    expect type (t :: ts) = .ok (t, ts) := by
  rw [expect, if_pos (type_of_fixed h)]

theorem startsWith_fixed (h : t.piece = fixed type) (ts : List Token) :
    startsWith type (t :: ts) = true := by
  simp [startsWith, type_of_fixed h]

theorem startsWith_ne {other : TokenType} (h : t.type = type) (hne : type ≠ other)
    (ts : List Token) : startsWith other (t :: ts) = false := by
  simpa [startsWith, h] using hne

/-! ## How an expression starts -/

variable {spell : Float → Bool × String}

/-- The first piece may start an expression. -/
def Opens (ps : List Piece) : Prop := ∃ p qs, ps = p :: qs ∧ p.type.opens = true

theorem Opens.append (h : Opens ps) (qs : List Piece) : Opens (ps ++ qs) := by
  obtain ⟨p, rest, rfl, hp⟩ := h
  exact ⟨p, rest ++ qs, rfl, hp⟩

theorem opens_operand (h : Opens (node.pieces spell)) (k : Nat) : Opens (node.operand spell k) := by
  unfold operand enclose
  split
  · exact ⟨_, _, rfl, rfl⟩
  · exact h

theorem opens_signed {negative : Bool} (h : literal.type.opens = true) :
    Opens (signed negative literal) := by
  unfold signed
  split
  · exact ⟨_, _, rfl, rfl⟩
  · exact ⟨_, _, rfl, h⟩

theorem opens_pieces (h : Expression node) : Opens (node.pieces spell) := by
  induction h with
  | number n | float h => exact opens_signed rfl
  | boolean b => cases b <;> exact ⟨_, _, rfl, rfl⟩
  | binary _ _ _ ihl _ =>
    rw [pieces_binary]
    exact (opens_operand ihl _).append _
  | comparison _ _ _ ihl _ =>
    rw [pieces_comparison]
    exact (opens_operand ihl _).append _
  | _ => exact ⟨_, _, rfl, rfl⟩

/-- The tokens of an expression do not start with a token that none starts with. -/
theorem Opens.startsWith (h : Opens ps) (hs : Spelled ps ts rest) (htype : type.opens = false) :
    startsWith type ts = false := by
  obtain ⟨p, qs, rfl, hp⟩ := h
  obtain ⟨t, us, rfl, rfl, -⟩ := hs
  refine startsWith_ne rfl ?_ us
  rintro rfl
  cases htype.symm.trans hp

/-! ## Primary expressions -/

variable {e : Parser Node}

theorem takes_commaSeparated (h : ∀ n ∈ node :: nodes, Takes (Stops 0) e (n.pieces spell) n)
    {more : Nat} (hmore : nodes.length ≤ more) :
    Takes (fun rest => Stops 0 rest ∧ startsWith .comma rest = false) (commaSeparated e more)
      (separated spell .comma (node :: nodes)) (node :: nodes) := by
  induction nodes generalizing node more with
  | nil =>
    intro ts rest hs hrest
    rw [separated, following, List.append_nil] at hs
    have hread := h node List.mem_cons_self ts rest hs hrest.1
    cases more <;> simp [commaSeparated, hread, hrest.2, bind, Except.bind]
  | cons next nodes ih =>
    intro ts rest hs hrest
    obtain ⟨more, rfl⟩ := Nat.exists_eq_add_one_of_ne_zero (n := more) (by simp at hmore; omega)
    obtain ⟨us, hfirst, c, vs, rfl, hc, hs⟩ := spelled_append.mp hs
    have hread := h node List.mem_cons_self ts _ hfirst (stops_fixed hc rfl le_rfl vs)
    have hmore := ih (fun n hn => h n (List.mem_cons_of_mem _ hn)) (by simpa using hmore) vs rest
      hs hrest
    simp [commaSeparated, hread, startsWith_fixed hc, hmore, bind, Except.bind]

theorem length_le_following (spell : Float → Bool × String) (between : TokenType)
    (nodes : List Node) : nodes.length ≤ (following spell between nodes).length := by
  induction nodes with
  | nil => simp
  | cons node nodes ih =>
    simp only [following, List.length_cons, List.length_append]
    omega

theorem takes_arguments (hexpr : ∀ n ∈ nodes, Expression n)
    (h : ∀ n ∈ nodes, Takes (Stops 0) e (n.pieces spell) n) {closing : TokenType}
    (hclosing : closing = .rightParen ∨ closing = .rightBracket) :
    Takes (fun _ => True) (arguments e closing)
      (separated spell .comma nodes ++ [fixed closing]) nodes := by
  intro ts rest hspelled _
  obtain ⟨us, hs, c, vs, rfl, hc, hvs⟩ := spelled_append.mp hspelled
  obtain rfl : vs = rest := hvs
  cases nodes with
  | nil =>
    obtain rfl : ts = c :: vs := hs
    rw [arguments, if_pos (startsWith_fixed hc vs)]
    rfl
  | cons node nodes =>
    have hopens : Opens (separated spell .comma (node :: nodes)) :=
      (opens_pieces (hexpr node List.mem_cons_self)).append _
    have hends : closing.ends? = some 0 ∧ closing.opens = false ∧ closing ≠ .comma := by
      rcases hclosing with rfl | rfl <;> exact ⟨rfl, rfl, by decide⟩
    have hlimit : nodes.length ≤ ts.length := by
      have := length_le_following spell .comma nodes
      rw [hs.length, separated, List.length_append]
      omega
    have hread := takes_commaSeparated h hlimit ts (c :: vs) hs
      ⟨stops_fixed hc hends.1 le_rfl vs, startsWith_ne (type_of_fixed hc) hends.2.2 vs⟩
    rw [arguments, if_neg (by simp [hopens.startsWith hs hends.2.1])]
    simp [hread, expect_fixed hc, bind, Except.bind]

theorem takes_enclosed (h : Takes (Stops 0) e ps node) :
    Takes (fun _ => True) (enclosed e) (fixed .leftParen :: (ps ++ [fixed .rightParen])) node := by
  rintro ts rest ⟨t, us, rfl, ht, hspelled⟩ _
  obtain ⟨vs, hs, u, ws, rfl, hu, hws⟩ := spelled_append.mp hspelled
  obtain rfl : ws = rest := hws
  have hread := h us _ hs (stops_fixed hu rfl le_rfl ws)
  simp [enclosed, expect_fixed ht, hread, expect_fixed hu, bind, Except.bind]

theorem unary_of_ne_minus (h : t.type ≠ .minus) (ts : List Token) :
    unary e (t :: ts) = stepped e (t :: ts) := by
  rw [unary, if_neg h]

theorem stepped_of_ne_identifier (h : t.type ≠ .identifier) (ts : List Token) :
    stepped e (t :: ts) = primary e (t :: ts) := by
  cases ts <;> simp [stepped, h]

theorem unary_primary (h : t.type = type) (htype : type ≠ .minus ∧ type ≠ .identifier)
    (ts : List Token) : unary e (t :: ts) = primary e (t :: ts) := by
  subst h
  rw [unary_of_ne_minus htype.1, stepped_of_ne_identifier htype.2]

/-- A literal, with its sign or without. -/
theorem takes_signed (htype : literal.type ≠ .minus ∧ literal.type ≠ .identifier)
    (h : ∀ t rest, t.piece = literal → primary e (t :: rest) = .ok (node, rest)) (negative : Bool) :
    Takes (fun _ => True) (unary e) (signed negative literal)
      (if negative then negate node else node) := by
  have hread {t : Token} (rest : List Token) (ht : t.piece = literal) :
      unary e (t :: rest) = .ok (node, rest) := by
    subst ht
    rw [unary_primary rfl htype]
    exact h t rest rfl
  intro ts rest hs _
  cases negative with
  | false =>
    obtain ⟨t, us, rfl, ht, hus⟩ := hs
    obtain rfl : us = rest := hus
    exact hread us ht
  | true =>
    obtain ⟨m, us, rfl, hm, t, vs, rfl, ht, hvs⟩ := hs
    obtain rfl : vs = rest := hvs
    rw [unary, if_pos (type_of_fixed hm), hread vs ht]
    rfl

theorem unary_identifier {x : String} (ht : t.piece = name x)
    (h : startsWith .plusPlus rest = false ∧ startsWith .minusMinus rest = false) :
    unary e (t :: rest) = primary e (t :: rest) := by
  obtain ⟨htype, -⟩ := type_of_name ht
  rw [unary_of_ne_minus (by simp [htype])]
  cases rest with
  | nil => rfl
  | cons u rest =>
    simp only [startsWith, beq_eq_false_iff_ne] at h
    simp [stepped, h]

/-- The parser reads expressions of at most so many pieces. -/
def Rereads (spell : Float → Bool × String) (bound : Nat) (e : Parser Node) : Prop :=
  ∀ node, Expression node → node.Literal spell → (node.pieces spell).length ≤ bound →
    Takes (Stops 0) e (node.pieces spell) node

theorem pieces_length_le_separated (spell : Float → Bool × String) (between : TokenType)
    (h : node ∈ nodes) : (node.pieces spell).length ≤ (separated spell between nodes).length := by
  have hfollowing {nodes : List Node} (h : node ∈ nodes) :
      (node.pieces spell).length ≤ (following spell between nodes).length := by
    induction nodes with
    | nil => cases h
    | cons other nodes ih =>
      simp only [following, List.length_cons, List.length_append]
      rcases List.mem_cons.mp h with rfl | h
      · omega
      · have := ih h
        omega
  cases nodes with
  | nil => cases h
  | cons other nodes =>
    simp only [separated, List.length_append]
    rcases List.mem_cons.mp h with rfl | h
    · omega
    · have := hfollowing h
      omega

variable {bound : Nat}

theorem Rereads.all (he : Rereads spell bound e) (hexpr : ∀ n ∈ nodes, Expression n)
    (hl : ∀ n ∈ nodes, n.Literal spell) (hlen : (separated spell .comma nodes).length ≤ bound) :
    ∀ n ∈ nodes, Takes (Stops 0) e (n.pieces spell) n := by
  intro n hn
  have := pieces_length_le_separated spell .comma hn
  exact he n (hexpr n hn) (hl n hn) (by omega)

/-- An expression without an operator outside of all parentheses. -/
theorem takes_atom (he : Rereads spell bound e) (h : Expression node) (hl : node.Literal spell)
    (hlevel : node.level = 3) (hlen : (node.pieces spell).length ≤ bound + 1) :
    Takes (Stops 3) (unary e) (node.pieces spell) node := by
  cases h with
  | number n =>
    have hprimary (t : Token) (rest : List Token) (ht : t.piece = ⟨.number, n.natAbs.repr⟩) :
        primary e (t :: rest) = .ok (.number n.natAbs, rest) := by
      have htype : t.type = .number := congrArg Piece.type ht
      have hvalue : t.value = n.natAbs.repr := congrArg Piece.value ht
      have hliteral := integerLiteral_repr (hl.number n (mem_subtrees_self _))
      simp [primary, htype, hvalue, hliteral, bind, Except.bind]
    rintro ts rest hs -
    rw [takes_signed ⟨by simp, by simp⟩ hprimary (n < 0) ts rest hs trivial]
    by_cases hn : n < 0
    · simp only [hn, decide_true, if_true, negate]
      congr 3
      omega
    · simp only [hn, decide_false, Bool.false_eq_true, if_false]
      congr 3
      omega
  | @float x _ _ h =>
    obtain ⟨y, hy, hx⟩ := (hl.float x (mem_subtrees_self _)).value
    have hprimary (t : Token) (rest : List Token) (ht : t.piece = ⟨.float, (spell x).2⟩) :
        primary e (t :: rest) = .ok (.float y, rest) := by
      have htype : t.type = .float := congrArg Piece.type ht
      have hvalue : t.value = (spell x).2 := congrArg Piece.value ht
      simp [primary, htype, hvalue, hy, bind, Except.bind]
    rintro ts rest hs -
    rw [takes_signed ⟨by simp, by simp⟩ hprimary (spell x).1 ts rest hs trivial]
    cases hsign : (spell x).1 with
    | false =>
      rw [hsign, if_neg (by simp)] at hx
      simp [hx]
    | true =>
      rw [hsign, if_pos rfl] at hx
      simp [negate, ← hx]
  | string s =>
    rintro ts rest ⟨t, us, rfl, ht, hus⟩ -
    obtain rfl : us = rest := hus
    have htype : t.type = .string := congrArg Piece.type ht
    have hvalue : t.value = s := congrArg Piece.value ht
    rw [unary_primary htype ⟨by decide, by decide⟩]
    simp [primary, htype, hvalue]
  | boolean b =>
    rintro ts rest ⟨t, us, rfl, ht, hus⟩ -
    obtain rfl : us = rest := hus
    cases b with
    | false =>
      have htype : t.type = .falseWord := type_of_fixed ht
      rw [unary_primary htype ⟨by decide, by decide⟩]
      simp [primary, htype]
    | true =>
      have htype : t.type = .trueWord := type_of_fixed ht
      rw [unary_primary htype ⟨by decide, by decide⟩]
      simp [primary, htype]
  | identifier hx =>
    rintro ts rest ⟨t, us, rfl, ht, hus⟩ hstop
    obtain rfl : us = rest := hus
    obtain ⟨htype, hvalue⟩ := type_of_name ht
    rw [unary_identifier ht ⟨hstop.startsWith rfl, hstop.startsWith rfl⟩]
    have hcall : startsWith .leftParen us = false := hstop.startsWith rfl
    simp [primary, htype, hvalue, hcall]
  | @binary left right op => cases op <;> cases hlevel
  | comparison => cases hlevel
  | increment hx | decrement hx =>
    rintro ts rest ⟨t, us, rfl, ht, u, vs, rfl, hu, hvs⟩ -
    obtain rfl : vs = rest := hvs
    obtain ⟨htype, hvalue⟩ := type_of_name ht
    rw [unary_of_ne_minus (by simp [htype])]
    simp [stepped, htype, hvalue, type_of_fixed hu]
  | @print inner hinner =>
    rintro ts rest ⟨t, us, rfl, ht, hs⟩ -
    have htype : t.type = .printWord := type_of_fixed ht
    simp only [pieces, List.length_cons, List.length_append] at hlen
    have hread := takes_enclosed (he inner hinner (hl.child (by simp [children])) (by omega))
    rw [unary_primary htype ⟨by decide, by decide⟩]
    simp [primary, htype, hread us rest hs trivial, bind, Except.bind]
  | random =>
    rintro ts rest ⟨t, us, rfl, ht, u, vs, rfl, hu, w, ws, rfl, hw, hws⟩ -
    obtain rfl : ws = rest := hws
    have htype : t.type = .randomWord := type_of_fixed ht
    rw [unary_primary htype ⟨by decide, by decide⟩]
    simp [primary, htype, randomBounds, expect_fixed hu, startsWith_fixed hw, bind, Except.bind]
  | @randomBetween low high hlow hhigh =>
    have hbounds : (Node.random low high).pieces spell = fixed .randomWord :: fixed .leftParen ::
        (low.pieces spell ++ fixed .comma :: (high.pieces spell ++ [fixed .rightParen])) := by
      rw [pieces, if_neg (by rw [hlow.isMissing_eq]; simp)]
      simp
    rw [hbounds] at hlen ⊢
    simp only [List.length_cons, List.length_append] at hlen
    rintro ts rest ⟨t, us, rfl, ht, u, vs, rfl, hu, hspelled⟩ -
    obtain ⟨ws, hslow, c, xs, rfl, hc, hspelled⟩ := spelled_append.mp hspelled
    obtain ⟨ys, hshigh, w, zs, rfl, hw, hzs⟩ := spelled_append.mp hspelled
    obtain rfl : zs = rest := hzs
    have htype : t.type = .randomWord := type_of_fixed ht
    have hfirst := he low hlow (hl.child (by simp [children])) (by omega) vs _ hslow
      (stops_fixed hc rfl le_rfl xs)
    have hsecond := he high hhigh (hl.child (by simp [children])) (by omega) xs _ hshigh
      (stops_fixed hw rfl le_rfl zs)
    have hopens : startsWith .rightParen vs = false := (opens_pieces hlow).startsWith hslow rfl
    rw [unary_primary htype ⟨by decide, by decide⟩]
    simp [primary, htype, randomBounds, expect_fixed hu, hopens, hfirst, expect_fixed hc, hsecond,
      expect_fixed hw, bind, Except.bind]
  | @call f args hf hargs =>
    rintro ts rest ⟨t, us, rfl, ht, u, vs, rfl, hu, hs⟩ -
    obtain ⟨htype, hvalue⟩ := type_of_name ht
    simp only [pieces, List.length_cons, List.length_append] at hlen
    have hread := takes_arguments hargs
      (he.all hargs (fun n hn => hl.child hn) (by omega)) (.inl rfl) vs rest hs trivial
    rw [unary_identifier ht ⟨startsWith_ne (type_of_fixed hu) (by decide) vs,
      startsWith_ne (type_of_fixed hu) (by decide) vs⟩]
    simp [primary, htype, hvalue, startsWith_fixed hu, hread, bind, Except.bind]
  | @array elements helements =>
    rintro ts rest ⟨t, us, rfl, ht, hs⟩ -
    have htype : t.type = .leftBracket := type_of_fixed ht
    simp only [pieces, List.length_cons, List.length_append] at hlen
    have hread := takes_arguments helements
      (he.all helements (fun n hn => hl.child hn) (by omega)) (.inr rfl) us rest hs trivial
    rw [unary_primary htype ⟨by decide, by decide⟩]
    simp [primary, htype, hread, bind, Except.bind]

/-! ## Operators -/

theorem level_le (node : Node) : node.level ≤ 3 := by
  cases node with
  | binary left op right => cases op <;> simp [level, ArithOp.level]
  | _ => simp [level]

/-- Only an arithmetic operator binds at a level in between. -/
theorem binary_of_level (h : Expression node) (hlevel : 0 < node.level) (hlevel' : node.level < 3) :
    ∃ left op right, node = .binary left op right ∧ op ∈ [ArithOp.add, .sub, .mul, .div] ∧
      Expression left ∧ Expression right := by
  cases h with
  | binary hop hl hr => exact ⟨_, _, _, rfl, hop, hl, hr⟩
  | comparison => cases hlevel
  | _ => simp [level] at hlevel'

/-- Wherever an operand of the tightest level may stand. -/
theorem takes_operand (he : Rereads spell bound e) (h : Expression node) (hl : node.Literal spell)
    (hlen : (node.operand spell 3).length ≤ bound + 1) :
    Takes (Stops 3) (unary e) (node.operand spell 3) node := by
  by_cases hlevel : node.level < 3
  · have henclosed : node.operand spell 3 =
        fixed .leftParen :: (node.pieces spell ++ [fixed .rightParen]) := by
      rw [operand, enclose, if_pos (by simpa using hlevel)]
    rw [henclosed] at hlen ⊢
    simp only [List.length_cons, List.length_append] at hlen
    have hread := takes_enclosed (he node h hl (by omega))
    rintro ts rest hs -
    have hs' := hs
    obtain ⟨t, us, rfl, ht, -⟩ := hs'
    have htype : t.type = .leftParen := type_of_fixed ht
    rw [unary_primary htype ⟨by decide, by decide⟩]
    simp only [primary, htype]
    exact hread _ rest hs trivial
  · have hbare : node.operand spell 3 = node.pieces spell := by
      rw [operand, enclose, if_neg (by simpa using hlevel)]
    rw [hbare] at hlen ⊢
    exact takes_atom he h hl (by have := level_le node; omega) hlen

variable {p : Parser Node} {op? : TokenType → Option ArithOp}

theorem chain_of_none (h : ∀ t ∈ rest.head?, op? t.type = none) (limit : Nat) (node : Node) :
    chain p op? limit node rest = .ok (node, rest) := by
  cases limit with
  | zero => rfl
  | succ limit =>
    cases rest with
    | nil => rfl
    | cons t rest => simp [chain, h t rfl]

theorem operand_of_level_ne (h : node.level ≠ k) :
    node.operand spell k = node.operand spell (k + 1) := by
  unfold operand
  have : (node.level < k) ↔ node.level < k + 1 := by omega
  simp only [this]

/-- A run of operands with operators of one level between them: after the first operand the rest is
joined on from the left, and what is left to read is what follows. -/
theorem spine (hk : k = 1 ∨ k = 2)
    (hop : ∀ op : ArithOp, op ∈ [.add, .sub, .mul, .div] → op.level = k →
      op? op.token = some op ∧ op.token.ends? = some (k + 1))
    (hoperand : ∀ node, Expression node → node.Literal spell →
      (node.operand spell (k + 1)).length ≤ bound →
      Takes (Stops (k + 1)) p (node.operand spell (k + 1)) node) (h : Expression node)
    (hl : node.Literal spell) (hlen : (node.operand spell k).length ≤ bound)
    (hs : Spelled (node.operand spell k) ts rest) (hstop : Stops (k + 1) rest) :
    ∃ count first us, p ts = .ok (first, us) ∧ count + rest.length ≤ us.length ∧
      ∀ more, chain p op? (count + more) first us = chain p op? more node rest := by
  induction node using Node.induction generalizing ts rest with
  | h node ih =>
    by_cases hlevel : node.level = k
    · obtain ⟨left, op, right, rfl, hmem, hleft, hright⟩ :=
        binary_of_level h (by omega) (by omega)
      obtain ⟨hsome, hends⟩ := hop op hmem hlevel
      have hlevel : op.level = k := hlevel
      have hpieces : (Node.binary left op right).operand spell k =
          left.operand spell k ++ fixed op.token :: right.operand spell (k + 1) := by
        rw [operand, enclose, if_neg (by simp [level, hlevel]), pieces_binary, hlevel]
      rw [hpieces] at hlen hs
      simp only [List.length_append, List.length_cons] at hlen
      obtain ⟨us, hsleft, t, vs, rfl, ht, hsright⟩ := spelled_append.mp hs
      obtain ⟨count, first, ws, hfirst, hcount, hchain⟩ :=
        ih left (by simp [children]) hleft (hl.child (by simp [children])) (by omega) hsleft
          (stops_fixed ht hends le_rfl vs)
      have hread := hoperand right hright (hl.child (by simp [children])) (by omega) vs rest hsright
        hstop
      have hlength := hsright.length
      refine ⟨count + 1, first, ws, hfirst, ?_, fun more => ?_⟩
      · simp only [List.length_cons] at hcount
        omega
      · rw [show count + 1 + more = count + (more + 1) by omega, hchain]
        simp [chain, type_of_fixed ht, hsome, hread, bind, Except.bind]
    · rw [operand_of_level_ne hlevel] at hlen hs
      exact ⟨0, node, rest, hoperand node h hl hlen ts rest hs hstop, by omega, fun more => by simp⟩

/-- A level of operators that group to the left. -/
theorem takes_chain (hk : k = 1 ∨ k = 2)
    (hop : ∀ op : ArithOp, op ∈ [.add, .sub, .mul, .div] → op.level = k →
      op? op.token = some op ∧ op.token.ends? = some (k + 1))
    (hnone : ∀ type l, TokenType.ends? type = some l → l ≤ k → op? type = none)
    (hoperand : ∀ node, Expression node → node.Literal spell →
      (node.operand spell (k + 1)).length ≤ bound →
      Takes (Stops (k + 1)) p (node.operand spell (k + 1)) node) (h : Expression node)
    (hl : node.Literal spell) (hlen : (node.operand spell k).length ≤ bound) :
    Takes (Stops k) (fun ts => do
      let (left, ts) ← p ts
      chain p op? ts.length left ts) (node.operand spell k) node := by
  intro ts rest hs hstop
  obtain ⟨count, first, us, hfirst, hcount, hchain⟩ :=
    spine hk hop hoperand h hl hlen hs (hstop.mono (by omega))
  obtain ⟨more, hmore⟩ := Nat.exists_eq_add_of_le (show count ≤ us.length by omega)
  have hrest : ∀ t ∈ rest.head?, op? t.type = none := by
    intro t ht
    obtain ⟨l, hends, hl⟩ := hstop t ht
    exact hnone _ l hends hl
  simp only [hfirst, bind, Except.bind, hmore, hchain]
  exact chain_of_none hrest more node

theorem takes_term (he : Rereads spell bound e) (h : Expression node) (hl : node.Literal spell)
    (hlen : (node.operand spell 2).length ≤ bound + 1) :
    Takes (Stops 2) (term e) (node.operand spell 2) node := by
  refine takes_chain (.inr rfl) ?_ ?_ (fun _ => takes_operand he) h hl hlen
  · intro op hop hlevel
    cases op with
    | add | sub => cases hlevel
    | mul | div => exact ⟨rfl, rfl⟩
    | other symbol => simp at hop
  · intro type l hends hl
    cases type <;> first | rfl | (cases hends; omega)

theorem takes_additive (he : Rereads spell bound e) (h : Expression node)
    (hl : node.Literal spell) (hlen : (node.operand spell 1).length ≤ bound + 1) :
    Takes (Stops 1) (additive e) (node.operand spell 1) node := by
  refine takes_chain (.inl rfl) ?_ ?_ (fun _ => takes_term he) h hl hlen
  · intro op hop hlevel
    cases op with
    | add | sub => exact ⟨rfl, rfl⟩
    | mul | div | other symbol => cases hlevel
  · intro type l hends hl
    cases type <;> first | rfl | (cases hends; omega)

theorem Rereads.compared (he : Rereads spell bound e) : Rereads spell (bound + 1) (compared e) := by
  intro node h hl hlen ts rest hs hstop
  by_cases hlevel : node.level = 0
  · obtain ⟨left, op, right, rfl, hmem, hleft, hright⟩ : ∃ left op right,
        node = .comparison left op right ∧ op ∈ [CompareOp.lt, .gt, .le, .ge, .eq, .ne] ∧
          Expression left ∧ Expression right := by
      cases h with
      | comparison hop hleft hright => exact ⟨_, _, _, rfl, hop, hleft, hright⟩
      | @binary _ _ op => cases op <;> cases hlevel
      | _ => cases hlevel
    have htoken : comparisonOp? op.token = some op ∧ op.token.ends? = some 1 := by
      cases op <;> first | exact ⟨rfl, rfl⟩ | simp at hmem
    rw [pieces_comparison] at hlen hs
    simp only [List.length_append, List.length_cons] at hlen
    obtain ⟨us, hsleft, t, vs, rfl, ht, hsright⟩ := spelled_append.mp hs
    have hfirst := takes_additive he hleft (hl.child (by simp [children])) (by omega) ts _ hsleft
      (stops_fixed ht htoken.2 le_rfl vs)
    have hsecond := takes_additive he hright (hl.child (by simp [children])) (by omega) vs rest
      hsright (hstop.mono (by omega))
    simp [Parse.compared, hfirst, type_of_fixed ht, htoken.1, hsecond, bind, Except.bind]
  · have hpieces : node.operand spell 1 = node.pieces spell := by
      rw [operand, enclose, if_neg (by simpa using hlevel)]
    rw [← hpieces] at hlen hs
    have hread := takes_additive he h hl hlen ts rest hs (hstop.mono (by omega))
    cases rest with
    | nil => simp [Parse.compared, hread, bind, Except.bind]
    | cons t rest =>
      obtain ⟨l, hends, hl⟩ := hstop t rfl
      have hnone : comparisonOp? t.type = none := by
        generalize t.type = type at hends
        cases type <;> first | rfl | (cases hends; omega)
      simp [Parse.compared, hread, hnone, bind, Except.bind]

theorem rereads_expression (depth : Nat) : Rereads spell depth (expression depth) := by
  induction depth with
  | zero =>
    intro node h hl hlen
    have hopens : Opens (node.pieces spell) := opens_pieces h
    obtain ⟨p, qs, hpieces, -⟩ := hopens
    rw [hpieces] at hlen
    simp at hlen
  | succ depth ih => exact ih.compared

end Parse
end DualEngine
