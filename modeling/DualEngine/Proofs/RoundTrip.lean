import DualEngine.Proofs.Reading

/-! # Reading trees back

Statements are read back like expressions. An `else` that follows goes to the last open `if`, so it
may only follow a statement that ends closed. Together with the scanner this makes parsing the
inverse of writing on canonical trees, and the canonical trees are all that parsing gives.
-/
namespace DualEngine
namespace Parse
open Node Piece

variable {spell : Float → Bool × String} {bound : Nat} {e s : Parser Node} {node : Node}
  {rest ts : List Token} {stop : Option TokenType} {nodes : List Node} {x : Float} {limit : Nat}
  {body : Node}

/-! ## Simple statements -/

/-- The first two tokens of an expression are no name and an assignment sign. -/
theorem simple_of_expression (h : Expression node) (hl : node.Literal spell)
    (hs : Spelled (node.pieces spell) ts rest) (hstop : Stops 0 rest) :
    simple e ts = e ts := by
  have hplain := h.plain hl
  have hopens : Opens (node.pieces spell) := opens_pieces h
  obtain ⟨p, ps, hpieces, -⟩ := hopens
  rw [hpieces] at hplain hs
  obtain ⟨t, us, rfl, -, hs⟩ := hs
  cases us with
  | nil => rfl
  | cons u us =>
    have hne : u.type ≠ .assign := by
      cases ps with
      | nil =>
        obtain rfl : u :: us = rest := hs
        obtain ⟨l, hends, -⟩ := hstop u rfl
        intro hassign
        rw [hassign] at hends
        cases hends
      | cons q qs =>
        obtain ⟨v, vs, hv, rfl, -⟩ := hs
        cases hv
        exact (hplain u.piece (by simp)).ne_assign
    simp [simple, hne]

theorem takes_simple (he : Rereads spell bound e) (h : Simple node) (hl : node.Literal spell)
    (hlen : (node.pieces spell).length ≤ bound) :
    Takes (Stops 0) (simple e) (node.pieces spell) node := by
  intro ts rest hs hstop
  cases h with
  | expression h =>
    rw [simple_of_expression h hl hs hstop]
    exact he node h hl hlen ts rest hs hstop
  | assign hx h =>
    simp only [pieces, List.length_cons] at hlen
    obtain ⟨t, us, rfl, ht, u, vs, rfl, hu, hs⟩ := hs
    obtain ⟨htype, hvalue⟩ := type_of_name ht
    have hread := he _ h (hl.child (by simp [children])) (by omega) vs rest hs hstop
    simp [simple, htype, hvalue, type_of_fixed hu, hread, bind, Except.bind]

theorem takes_optional {stop : TokenType} {part : Node} {P : Node → Prop}
    (h : part = .missing ∨ P part) (hopens : P part → Opens (part.pieces spell))
    (hstop : stop.opens = false) (he : P part → Takes (Stops 0) e (part.pieces spell) part) :
    Takes (fun rest => Stops 0 rest ∧ startsWith stop rest = true) (optional stop e)
      (part.pieces spell) part := by
  intro ts rest hs hrest
  rcases h with rfl | h
  · obtain rfl : ts = rest := hs
    rw [optional, if_pos hrest.2]
  · rw [optional, if_neg (by simp [(hopens h).startsWith hs hstop])]
    exact he h ts rest hs hrest.1

theorem opens_simple (h : Simple node) : Opens (node.pieces spell) := by
  cases h with
  | expression h => exact opens_pieces h
  | assign => exact ⟨_, _, rfl, rfl⟩

/-! ## Statements one after the other -/

/-- The tokens that a statement starts with and no expression. -/
def Leads (type : TokenType) : Prop :=
  type.opens = true ∨ type = .ifWord ∨ type = .forWord ∨ type = .defWord

theorem leads_statement (spell : Float → Bool × String) (h : Statement node) :
    ∃ p ps, node.pieces spell = p :: ps ∧ Leads p.type := by
  cases h with
  | simple h =>
    have hopens : Opens (node.pieces spell) := opens_simple h
    obtain ⟨p, ps, hpieces, hp⟩ := hopens
    exact ⟨p, ps, hpieces, .inl hp⟩
  | branch | branchElse => exact ⟨_, _, rfl, .inr (.inl rfl)⟩
  | loop => exact ⟨_, _, rfl, .inr (.inr (.inl rfl))⟩
  | define => exact ⟨_, _, rfl, .inr (.inr (.inr rfl))⟩

/-- A token that may follow a statement: one that ends an expression, and no `else` if the statement
would take it. -/
def Follows (node : Node) (rest : List Token) : Prop := Stops 0 rest ∧ Closed node rest

/-- The parser reads statements of at most so many pieces. -/
def RereadsStatements (spell : Float → Bool × String) (bound : Nat) (s : Parser Node) : Prop :=
  ∀ node, Statement node → node.Literal spell → (node.pieces spell).length ≤ bound →
    Takes (Follows node) s (node.pieces spell) node

/-- The end of a list of statements: nothing follows, or the closing brace. -/
def Finished (stop : Option TokenType) (rest : List Token) : Prop :=
  (stop = none ∧ rest = []) ∨ (stop = some .rightBrace ∧ startsWith .rightBrace rest = true)

theorem Finished.statements_nil (h : Finished stop rest) (limit : Nat) :
    statements s stop limit rest = .ok ([], rest) := by
  cases limit with
  | zero => rfl
  | succ limit =>
    rcases h with ⟨rfl, rfl⟩ | ⟨rfl, h⟩
    · rfl
    · cases rest with
      | nil => cases h
      | cons t rest =>
        simp only [startsWith, beq_iff_eq] at h
        simp [statements, h]

/-- Where a list of statements goes on or ends, any statement may end. -/
theorem follows_following (hs : Spelled (following spell .semicolon nodes) ts rest)
    (h : Finished stop rest) (node : Node) : Follows node ts := by
  cases nodes with
  | nil =>
    obtain rfl : ts = rest := hs
    rcases h with ⟨-, rfl⟩ | ⟨-, h⟩
    · exact ⟨by simp [Stops], fun _ => rfl⟩
    · cases ts with
      | nil => cases h
      | cons t ts =>
        simp only [startsWith, beq_iff_eq] at h
        refine ⟨fun u hu => ?_, fun _ => startsWith_ne h (by decide) ts⟩
        cases hu
        exact ⟨0, h ▸ rfl, le_rfl⟩
  | cons next nodes =>
    obtain ⟨t, us, rfl, ht, -⟩ := hs
    exact ⟨stops_fixed ht rfl le_rfl us, fun _ => startsWith_ne (type_of_fixed ht) (by decide) us⟩

theorem statements_cons (hstop : stop = none ∨ stop = some .rightBrace) (h : Statement node)
    {us vs : List Token}
    (hdrop : ts.dropWhile (·.type == .semicolon) = us.dropWhile (·.type == .semicolon))
    (hs : Spelled (node.pieces spell) us vs) (hread : s us = .ok (node, vs))
    (hmore : statements s stop limit vs = .ok (nodes, rest)) :
    statements s stop (limit + 1) ts = .ok (node :: nodes, rest) := by
  obtain ⟨p, ps, hpieces, hp⟩ := leads_statement spell h
  rw [hpieces] at hs
  obtain ⟨t, us, rfl, rfl, -⟩ := hs
  have hlead : t.type ≠ .semicolon ∧ some t.type ≠ stop := by
    have hne : t.type ≠ .semicolon ∧ t.type ≠ .rightBrace := by
      change Leads t.type at hp
      generalize t.type = type at hp
      cases type <;> simp [Leads, TokenType.opens] at hp ⊢
    exact ⟨hne.1, by rcases hstop with rfl | rfl <;> simp [hne.2]⟩
  rw [statements, hdrop]
  simp [hlead.1, hlead.2, hread, hmore, bind, Except.bind]

theorem takes_following (hr : RereadsStatements spell bound s)
    (hstop : stop = none ∨ stop = some .rightBrace) (h : ∀ node ∈ nodes, Statement node)
    (hl : ∀ node ∈ nodes, node.Literal spell)
    (hlen : ∀ node ∈ nodes, (node.pieces spell).length ≤ bound) (hlimit : nodes.length ≤ limit) :
    Takes (Finished stop) (statements s stop limit) (following spell .semicolon nodes) nodes := by
  induction nodes generalizing limit with
  | nil =>
    intro ts rest hs hrest
    obtain rfl : ts = rest := hs
    exact hrest.statements_nil limit
  | cons node nodes ih =>
    intro ts rest hs hrest
    obtain ⟨limit, rfl⟩ := Nat.exists_eq_add_one_of_ne_zero (n := limit) (by simp at hlimit; omega)
    obtain ⟨t, us, rfl, ht, hs⟩ := hs
    obtain ⟨vs, hfirst, hmore⟩ := spelled_append.mp hs
    have hread := hr node (h node List.mem_cons_self) (hl node List.mem_cons_self)
      (hlen node List.mem_cons_self) us vs hfirst (follows_following hmore hrest node)
    have hrest := ih (fun n hn => h n (List.mem_cons_of_mem _ hn))
      (fun n hn => hl n (List.mem_cons_of_mem _ hn))
      (fun n hn => hlen n (List.mem_cons_of_mem _ hn)) (by simpa using hlimit) vs rest hmore hrest
    refine statements_cons hstop (h node List.mem_cons_self) ?_ hfirst hread hrest
    simp [type_of_fixed ht]

theorem takes_statements (hr : RereadsStatements spell bound s)
    (hstop : stop = none ∨ stop = some .rightBrace) (h : ∀ node ∈ nodes, Statement node)
    (hl : ∀ node ∈ nodes, node.Literal spell)
    (hlen : ∀ node ∈ nodes, (node.pieces spell).length ≤ bound) (hlimit : nodes.length ≤ limit) :
    Takes (Finished stop) (statements s stop limit) (separated spell .semicolon nodes) nodes := by
  intro ts rest hs hrest
  cases nodes with
  | nil =>
    obtain rfl : ts = rest := hs
    exact hrest.statements_nil limit
  | cons node nodes =>
    obtain ⟨limit, rfl⟩ := Nat.exists_eq_add_one_of_ne_zero (n := limit) (by simp at hlimit; omega)
    obtain ⟨us, hfirst, hmore⟩ := spelled_append.mp hs
    have hread := hr node (h node List.mem_cons_self) (hl node List.mem_cons_self)
      (hlen node List.mem_cons_self) ts us hfirst (follows_following hmore hrest node)
    have hrest := takes_following hr hstop (fun n hn => h n (List.mem_cons_of_mem _ hn))
      (fun n hn => hl n (List.mem_cons_of_mem _ hn))
      (fun n hn => hlen n (List.mem_cons_of_mem _ hn)) (by simpa using hlimit) us rest hmore hrest
    exact statements_cons hstop (h node List.mem_cons_self) rfl hfirst hread hrest

theorem length_le_of_statements (spell : Float → Bool × String) (h : ∀ node ∈ nodes, Statement node) :
    nodes.length ≤ (separated spell .semicolon nodes).length := by
  cases nodes with
  | nil => simp
  | cons node nodes =>
    obtain ⟨p, ps, hpieces, -⟩ := leads_statement spell (h node List.mem_cons_self)
    have := length_le_following spell .semicolon nodes
    simp only [separated, hpieces, List.length_append, List.length_cons]
    omega

/-! ## Bodies -/

/-- No statement starts with a brace. -/
theorem startsWith_leftBrace (h : Statement node) (hs : Spelled (node.pieces spell) ts rest) :
    startsWith .leftBrace ts = false := by
  obtain ⟨p, ps, hpieces, hp⟩ := leads_statement spell h
  rw [hpieces] at hs
  obtain ⟨t, us, rfl, rfl, -⟩ := hs
  change Leads t.type at hp
  refine startsWith_ne rfl ?_ us
  rintro hbrace
  rw [hbrace] at hp
  simp [Leads, TokenType.opens] at hp

theorem takes_block (hr : RereadsStatements spell bound s)
    (h : ∀ node ∈ body.statements, Statement node) (hl : body.Literal spell)
    (hlen : (body.pieces spell).length ≤ bound) :
    Takes (Follows body) (block s) (body.pieces spell) body := by
  intro ts rest hs hrest
  cases body with
  | sequence nodes =>
    have h : ∀ node ∈ nodes, Statement node := h
    simp only [pieces, List.length_cons, List.length_append] at hlen
    obtain ⟨t, us, rfl, ht, hspelled⟩ := hs
    obtain ⟨vs, hs, u, ws, rfl, hu, hws⟩ := spelled_append.mp hspelled
    obtain rfl : ws = rest := hws
    have hparts (node : Node) (hnode : node ∈ nodes) : (node.pieces spell).length ≤ bound := by
      have := pieces_length_le_separated spell .semicolon hnode
      omega
    have hlimit : nodes.length ≤ us.length := by
      have := length_le_of_statements spell h
      rw [hs.length]
      omega
    have hread := takes_statements hr (.inr rfl) h (fun node hnode => hl.child hnode) hparts hlimit
      us _ hs (.inr ⟨rfl, startsWith_fixed hu ws⟩)
    rw [block, if_pos (startsWith_fixed ht us)]
    simp [hread, expect_fixed hu, bind, Except.bind]
  | _ =>
    have hnode := h _ List.mem_cons_self
    rw [block, if_neg (by simp [startsWith_leftBrace hnode hs])]
    exact hr _ hnode hl hlen ts rest hs hrest

/-! ## Compound statements -/

theorem takes_branch (he : Rereads spell bound e) (hr : RereadsStatements spell bound s)
    {condition thenPart elsePart : Node} (hc : Expression condition)
    (ht : ∀ node ∈ thenPart.statements, Statement node)
    (helse : elsePart = .missing ∨
      (∀ node ∈ elsePart.statements, Statement node) ∧ thenPart.endsOpen = false)
    (hl : (Node.branch condition thenPart elsePart).Literal spell)
    (hlen : ((Node.branch condition thenPart elsePart).pieces spell).length ≤ bound + 1) :
    Takes (Follows (.branch condition thenPart elsePart)) (branch e s)
      ((Node.branch condition thenPart elsePart).pieces spell).tail
      (.branch condition thenPart elsePart) := by
  intro ts rest hs hrest
  have hlc : condition.Literal spell := hl.child (by simp [children])
  have hlt : thenPart.Literal spell := hl.child (by simp [children])
  have hle : elsePart.Literal spell := hl.child (by simp [children])
  simp only [pieces, List.length_cons, List.length_append] at hlen
  obtain ⟨t, us, rfl, htparen, hspelled⟩ := hs
  obtain ⟨vs, hsc, u, ws, rfl, hu, hspelled⟩ := spelled_append.mp hspelled
  obtain ⟨xs, hst, hse⟩ := spelled_append.mp hspelled
  have hcondition := he condition hc hlc (by omega) us _ hsc (stops_fixed hu rfl le_rfl ws)
  have hthen := takes_block hr ht hlt (by omega) ws xs hst
  rcases helse with rfl | ⟨helse, hclosed⟩
  · obtain rfl : xs = rest := hse
    have hnone : startsWith .elseWord xs = false := hrest.2 rfl
    have hthen := hthen ⟨hrest.1, fun _ => hnone⟩
    simp [branch, enclosed, expect_fixed htparen, hcondition, expect_fixed hu, hthen, hnone, bind,
      Except.bind]
  · have hne := ne_missing_of_statements helse
    rw [if_neg (by simpa using fun h => hne (eq_missing h))] at hse hlen
    obtain ⟨w, ys, rfl, hw, hse⟩ := hse
    simp only [List.length_cons] at hlen
    have hthen := hthen ⟨stops_fixed hw rfl le_rfl ys, fun hopen => by
      cases hclosed.symm.trans hopen⟩
    have hother := takes_block hr helse hle (by omega) ys rest hse ⟨hrest.1, fun hopen =>
      hrest.2 (by rwa [endsOpen_branch hne])⟩
    simp [branch, enclosed, expect_fixed htparen, hcondition, expect_fixed hu, hthen,
      startsWith_fixed hw, hother, bind, Except.bind]

theorem takes_loop (he : Rereads spell bound e) (hr : RereadsStatements spell bound s)
    {start condition step : Node} (hstart : start = .missing ∨ Simple start)
    (hcondition : condition = .missing ∨ Expression condition)
    (hstep : step = .missing ∨ Simple step) (hbody : ∀ node ∈ body.statements, Statement node)
    (hl : (Node.loop start condition step body).Literal spell)
    (hlen : ((Node.loop start condition step body).pieces spell).length ≤ bound + 1) :
    Takes (Follows (.loop start condition step body)) (loop e s)
      ((Node.loop start condition step body).pieces spell).tail
      (.loop start condition step body) := by
  intro ts rest hs hrest
  have hl1 : start.Literal spell := hl.child (by simp [children])
  have hl2 : condition.Literal spell := hl.child (by simp [children])
  have hl3 : step.Literal spell := hl.child (by simp [children])
  have hl4 : body.Literal spell := hl.child (by simp [children])
  simp only [pieces, List.length_cons, List.length_append] at hlen
  obtain ⟨t, us1, rfl, ht, hspelled⟩ := hs
  obtain ⟨vs1, hs1, u1, us2, rfl, hu1, hspelled⟩ := spelled_append.mp hspelled
  obtain ⟨vs2, hs2, u2, us3, rfl, hu2, hspelled⟩ := spelled_append.mp hspelled
  obtain ⟨vs3, hs3, u3, us4, rfl, hu3, hs4⟩ := spelled_append.mp hspelled
  have hread1 := takes_optional hstart opens_simple rfl
    (fun h => takes_simple he h hl1 (by omega)) us1 _ hs1
    ⟨stops_fixed hu1 rfl le_rfl us2, startsWith_fixed hu1 us2⟩
  have hread2 := takes_optional hcondition opens_pieces rfl
    (fun h => he condition h hl2 (by omega)) us2 _ hs2
    ⟨stops_fixed hu2 rfl le_rfl us3, startsWith_fixed hu2 us3⟩
  have hread3 := takes_optional hstep opens_simple rfl
    (fun h => takes_simple he h hl3 (by omega)) us3 _ hs3
    ⟨stops_fixed hu3 rfl le_rfl us4, startsWith_fixed hu3 us4⟩
  have hread4 := takes_block hr hbody hl4 (by omega) us4 rest hs4 ⟨hrest.1, hrest.2⟩
  simp [loop, expect_fixed ht, hread1, expect_fixed hu1, hread2, expect_fixed hu2, hread3,
    expect_fixed hu3, hread4, bind, Except.bind]

theorem expect_name {t : Token} {x : String} (h : t.piece = name x) (ts : List Token) :
    expect .identifier (t :: ts) = .ok (t, ts) := by
  rw [expect, if_pos (type_of_name h).1]

theorem takes_parameters (f : String) (seen : List String) {x : String} {xs : List String}
    (hdistinct : (seen ++ x :: xs).Nodup) {more : Nat} (hmore : xs.length ≤ more) :
    Takes (fun rest => startsWith .comma rest = false) (parameters f more seen)
      (nameList (x :: xs)) (seen ++ x :: xs) := by
  induction xs generalizing seen x more with
  | nil =>
    rintro ts rest ⟨t, us, rfl, ht, hus⟩ hrest
    obtain rfl : us = rest := hus
    have hnew : x ∉ seen := by
      intro hx
      exact (List.nodup_append.mp hdistinct).2.2 x hx x List.mem_cons_self rfl
    have hvalue := (type_of_name ht).2
    cases more <;>
      simp [parameters, expect_name ht, hvalue, hnew, hrest, bind, Except.bind]
  | cons y ys ih =>
    rintro ts rest ⟨t, us, rfl, ht, c, vs, rfl, hc, hs⟩ hrest
    obtain ⟨more, rfl⟩ := Nat.exists_eq_add_one_of_ne_zero (n := more) (by simp at hmore; omega)
    have hnew : x ∉ seen := by
      intro hx
      exact (List.nodup_append.mp hdistinct).2.2 x hx x List.mem_cons_self rfl
    have hvalue := (type_of_name ht).2
    have hread := ih (seen ++ [x]) (by simpa using hdistinct) (by simpa using hmore) vs rest
      hs hrest
    rw [parameters]
    simp only [expect_name ht, hvalue, bind, Except.bind, List.contains_eq_mem, hnew,
      startsWith_fixed hc]
    simpa using hread

theorem takes_definition (hr : RereadsStatements spell bound s) {f : String}
    {params : List String} (hdistinct : params.Nodup)
    (hbody : ∀ node ∈ body.statements, Statement node)
    (hl : (Node.define f params body).Literal spell)
    (hlen : ((Node.define f params body).pieces spell).length ≤ bound + 1) :
    Takes (Follows (.define f params body)) (definition s)
      ((Node.define f params body).pieces spell).tail (.define f params body) := by
  intro ts rest hs hrest
  have hl : body.Literal spell := hl.child (by simp [children])
  simp only [pieces, List.length_cons, List.length_append] at hlen
  obtain ⟨t, us, rfl, ht, u, vs, rfl, hu, hspelled⟩ := hs
  obtain ⟨ws, hsparams, w, xs, rfl, hw, hsbody⟩ := spelled_append.mp hspelled
  have hread := takes_block hr hbody hl (by omega) xs rest hsbody ⟨hrest.1, hrest.2⟩
  have hvalue := (type_of_name ht).2
  cases params with
  | nil =>
    obtain rfl : vs = w :: xs := hsparams
    simp [definition, expect_name ht, expect_fixed hu, startsWith_fixed hw, expect_fixed hw, hread,
      hvalue, bind, Except.bind]
  | cons x params =>
    have hmore : params.length ≤ vs.length := by
      have hlength := hsparams.length
      have : params.length ≤ (nameList (x :: params)).length := by
        simp [nameList, List.length_flatMap]
        omega
      omega
    have hnames := takes_parameters f [] hdistinct hmore vs _ hsparams
      (startsWith_ne (type_of_fixed hw) (by decide) xs)
    have hsome : startsWith .rightParen vs = false := by
      obtain ⟨v, ys, rfl, hv, -⟩ := hsparams
      exact startsWith_ne (type_of_name hv).1 (by decide) ys
    simp only [List.nil_append] at hnames
    simp [definition, expect_name ht, expect_fixed hu, hsome, hnames, expect_fixed hw, hread,
      hvalue, bind, Except.bind]

theorem rereads_statement (depth : Nat) : RereadsStatements spell depth (statement depth) := by
  induction depth with
  | zero =>
    intro node h hl hlen
    obtain ⟨p, ps, hpieces, -⟩ := leads_statement spell h
    rw [hpieces] at hlen
    simp at hlen
  | succ depth ih =>
    intro node h hl hlen ts rest hs hrest
    have he : Rereads spell depth (expression depth) := rereads_expression depth
    cases h with
    | simple h =>
      have hread := takes_simple (rereads_expression (depth + 1)) h hl hlen ts rest hs hrest.1
      have hopens : Opens (node.pieces spell) := opens_simple h
      obtain ⟨p, ps, hpieces, hp⟩ := hopens
      rw [hpieces] at hs
      obtain ⟨t, us, rfl, rfl, -⟩ := hs
      change t.type.opens = true at hp
      rw [statement, ← hread]
      generalize t.type = type at hp
      cases type <;> first | rfl | cases hp
    | branch hc ht =>
      have hread := takes_branch he ih hc ht (.inl rfl) hl hlen
      obtain ⟨t, us, rfl, ht, hs⟩ := hs
      simp only [statement, type_of_fixed ht]
      exact hread us rest hs hrest
    | branchElse hc ht helse hclosed =>
      have hread := takes_branch he ih hc ht (.inr ⟨helse, hclosed⟩) hl hlen
      obtain ⟨t, us, rfl, ht, hs⟩ := hs
      simp only [statement, type_of_fixed ht]
      exact hread us rest hs hrest
    | loop hstart hcondition hstep hbody =>
      have hread := takes_loop he ih hstart hcondition hstep hbody hl hlen
      obtain ⟨t, us, rfl, ht, hs⟩ := hs
      simp only [statement, type_of_fixed ht]
      exact hread us rest hs hrest
    | define hf hparams hdistinct hbody =>
      have hread := takes_definition ih hdistinct hbody hl hlen
      obtain ⟨t, us, rfl, ht, hs⟩ := hs
      simp only [statement, type_of_fixed ht]
      exact hread us rest hs hrest

end Parse

/-! ## Submissions -/

namespace Node
open Piece

variable {spell : Float → Bool × String} {node : Node}

/-- Parsing inverts writing. -/
theorem Canonical.parse_source (h : node.Canonical) (hl : node.Literal spell) :
    parse (node.source spell) = .ok node := by
  cases h with
  | @sequence nodes h =>
    have hlit : ∀ node ∈ nodes, node.Literal spell := fun node hnode => hl.child hnode
    have hvalid : ∀ p ∈ separated spell .semicolon nodes, p.Valid :=
      valid_separated fun node hnode => (h node hnode).valid (hlit node hnode)
    obtain ⟨ts, hts, hpieces⟩ := tokensFrom_spaced hvalid {}
    have hspelled := Parse.spelled_map ts
    rw [hpieces] at hspelled
    have hlength := hspelled.length
    have hparts (node : Node) (hnode : node ∈ nodes) : (node.pieces spell).length ≤ ts.length := by
      have := Parse.pieces_length_le_separated spell .semicolon hnode
      omega
    have hlimit : nodes.length ≤ ts.length := by
      have := Parse.length_le_of_statements spell h
      omega
    have hread := Parse.takes_statements (Parse.rereads_statement ts.length) (.inl rfl) h hlit
      hparts hlimit ts [] hspelled (.inl ⟨rfl, rfl⟩)
    have htokens : tokenize ((Node.sequence nodes).source spell) = .ok ts := by
      rw [tokenize, source, String.toList_ofList]
      exact hts
    simp [parse, htokens, Parse.program, hread, bind, Except.bind]

/-- Some literal, with a sign before it or without, stands for the float. -/
def Spellable (x : Float) : Prop := ∃ negative text, Spells negative text x

theorem IsPart.spells {x : Float} (h : IsPart node) (hx : .float x ∈ node.subtrees) :
    Spellable x := by
  rcases h.of_mem_subtrees hx with h | h
  · cases h
  · cases h _ List.mem_cons_self with
    | simple h =>
      cases h with
      | expression h =>
        cases h with
        | float h => exact ⟨_, _, h⟩

theorem Canonical.isPart (h : node.Canonical) : IsPart node := by
  cases h with
  | sequence h => exact .inr h

/-- The floats of a canonical tree can all be spelled. -/
theorem Canonical.exists_literal (h : node.Canonical)
    (hn : ∀ n : Int, .number n ∈ node.subtrees → n.natAbs.repr.length ≤ maxDigits) :
    ∃ spell, node.Literal spell := by
  have hspells (x : Float) :
      ∃ how : Bool × String, .float x ∈ node.subtrees → Spells how.1 how.2 x := by
    by_cases hx : .float x ∈ node.subtrees
    · obtain ⟨negative, text, hspells⟩ := h.isPart.spells hx
      exact ⟨(negative, text), fun _ => hspells⟩
    · exact ⟨(false, ""), fun h => absurd h hx⟩
  choose spell hspell using hspells
  exact ⟨spell, hn, hspell⟩

end Node

/-- Parsing gives canonical trees only, and all of them: a canonical tree whose whole numbers are
not too long has a source text, and parsing its source text, however its floats are spelled, gives
the tree. -/
theorem parse_inverts_source :
    (∀ source node, parse source = .ok node → node.Canonical) ∧
      ∀ node : Node, node.Canonical →
        (∀ n : Int, .number n ∈ node.subtrees → n.natAbs.repr.length ≤ maxDigits) →
        (∃ spell, node.Literal spell) ∧
          ∀ spell, node.Literal spell → parse (node.source spell) = .ok node :=
  ⟨fun _ _ => canonical_of_parse, fun _ h hn => ⟨h.exists_literal hn, fun _ => h.parse_source⟩⟩

/-- A difference grouped to the right as a factor, negative numbers, a comparison compared, and an
open `if` between braces. -/
def grouped : Node := .sequence [
  .assign "x" (.binary (.binary (.number 1) .sub (.binary (.number 2) .sub (.number (-3)))) .mul
    (.number (-4))),
  .branch (.comparison (.comparison (.identifier "x") .lt (.identifier "y")) .eq (.boolean true))
    (.sequence [.branch (.identifier "y") (.increment "z") .missing]) (.print (.string "a\n"))]

theorem grouped_source :
    grouped.source (fun _ => (false, "")) =
      "x=(1-(2- -3))*-4;if((x<y)==true)\x7bif(y)z++\x7delse print(\"a\\n\")" ∧
    parse (grouped.source fun _ => (false, "")) = .ok grouped := by
  have hparse : parse "x=(1-(2- -3))*-4;if((x<y)==true)\x7bif(y)z++\x7delse print(\"a\\n\")" =
      .ok grouped := by cbv
  have hcanonical := parse_inverts_source.1 _ grouped hparse
  have hnumbers : ∀ n : Int, .number n ∈ grouped.subtrees → n.natAbs.repr.length ≤ maxDigits := by
    intro n hn
    simp only [grouped, Node.subtrees, Node.subtreesOf, List.mem_cons, List.mem_append,
      List.not_mem_nil, or_false, false_or, reduceCtorEq, Node.number.injEq] at hn
    rcases hn with (rfl | rfl | rfl) | rfl <;> decide
  refine ⟨by decide +kernel, (parse_inverts_source.2 grouped hcanonical hnumbers).2 _ ?_⟩
  refine ⟨hnumbers, fun x hx => ?_⟩
  simp [grouped, Node.subtrees, Node.subtreesOf] at hx

end DualEngine
