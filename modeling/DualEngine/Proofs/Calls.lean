import DualEngine.Proofs.Loops

/-! # Calls in code

The arguments of a call are evaluated in order and converted to floats, on both sides. What the
function does then is `Answers`. With this every tree that may be lowered is simulated.
-/
namespace DualEngine.Lowering
open IR Machine

variable {image : Image} {f : Function} {whole : State} {gs : List Global} {D : Bindings}
  {F : Table Definition} {M : Table Signature} {fuel : Nat} {node : Node}
  {earlier : Earlier} {scope : Scope} {s s' s1 : State} {r : Lowered} {held : List String}
  {frame : Evaluator.Frame} {st st' : Evaluator.State} {v : Value} {previous before : String}
  {a b : Snap} {code : List Instruction}

theorem simulated_arguments
    (ih : ∀ node, Simulates image f whole gs D F M fuel node) (previous : String)
    {function : String} {params : List String} {nodes : List Node} {os : List Operand}
    {inner result : Evaluator.Frame} (hlen : nodes.length = params.length)
    (hr : ∀ node ∈ nodes, node.isExpression = true ∧ Regular earlier s.context.functions node)
    (hc : ∀ node ∈ nodes, ∀ name args, Node.call name args ∈ node.subtrees →
      CallsAnswer image gs D F s.context.functions M fuel)
    (h : lowerArguments earlier scope function params nodes s = .ok os s')
    (hp : Path held scope s s' whole D)
    (hev : Evaluator.bindArguments (Evaluator.eval fuel frame) function params nodes inner st =
      .ok result st')
    (hport : Evaluator.PortablyAll fuel frame nodes st)
    (hag : Accords image gs D F scope.params before frame st a) (hpl : Places whole s a) :
    ∃ previous' b xs, Follows image f whole s previous a s' previous' b ∧
      Accords image gs D F scope.params before frame st' b ∧
      GivesAll image b.frame os (xs.map .double) ∧ xs.length = params.length ∧
      result = (params.zip xs).foldl (fun t binding => t.insert binding.1 binding.2) inner := by
  induction nodes generalizing s os params inner st a previous with
  | nil =>
    cases params with
    | nil =>
      cases h
      cases hev
      exact ⟨previous, a, [], .refl previous hpl, hag, .nil, rfl, rfl⟩
    | cons => simp at hlen
  | cons node rest ihr =>
    cases params with
    | nil => simp at hlen
    | cons param params =>
      obtain ⟨l, s1, t, o, s2, os', h1, hvalue, hk, h2, h3, rfl⟩ := lowerArguments_cons h
      obtain ⟨u, st1, x, e1, -, hx, e2⟩ := Evaluator.bindArguments_cons_ok hev
      obtain ⟨port1, port2⟩ := hport.cons e1
      obtain ⟨he, hre⟩ := hr node List.mem_cons_self
      obtain ⟨m1, f1, -⟩ := (lowers earlier node).expression he hre hp.poised h1
      have ht := f1.value
      rw [hvalue] at ht
      obtain ⟨o', s2', code, h2', A, hfits, run⟩ := toFloat_spec ht (numeric_cases hk)
      rw [h2'] at h2
      cases h2
      have p1 := m1.poised hp.poised
      have m2 := m1.appends hp.poised A
      have hfun := m2.declares.functions
      have hr' : ∀ n ∈ rest, n.isExpression = true ∧ Regular earlier s2.context.functions n :=
        fun n hn => hfun ▸ hr n (List.mem_cons_of_mem _ hn)
      obtain ⟨m3, -⟩ := lowerArguments_moves (fun n _ => lowers earlier n) hr' (m2.poised hp.poised) h3
      have first := hp.first m2 m3
      have mA := moves_appends scope p1.active A
      -- the argument, then its conversion
      obtain ⟨q, b1, F1, G1, C₁⟩ := (ih node).expression he previous h1 hre
        (hc node List.mem_cons_self) (first.first m1 mA) e1 port1 hag hpl
      rw [hvalue] at C₁
      obtain ⟨b2, y, C, hg, hy⟩ := run image b1 u C₁
      obtain rfl : y = x := by
        rw [hy] at hx
        exact Value.float.inj hx
      have F2 := F1.appends (m1.grown hp.poised).evolves.used A p1.active (first.second m1 mA).housed
        first.settles C.runs (C.quiet.keeps _)
      obtain ⟨q', b3, xs, F3, G3, I3, hxs, hresult⟩ := ihr q (by simpa using hlen) hr'
        (fun n hn => hfun ▸ hc n (List.mem_cons_of_mem _ hn)) h3 (hp.second m2 m3) e2 port2
        (G1.quiet C.quiet p1.known) F2.places
      refine ⟨q', b3, y :: xs, ?_, G3, .cons ?_ I3, by simpa using hxs, hresult⟩
      · exact F2.trans F3 (m2.grown hp.poised).evolves.used
          (m3.grown (m2.poised hp.poised)).evolves.used
      · exact hg.keep hfits.known F3.keeps.registers

/-- The instruction of a call does what the function does and sets one register. -/
theorem callFunction_runs {callee : Signature} {returns : Kind} {os : List Operand}
    {ws : List Word} {w : Option Word} {m : Machine.State} {value : Option Typed}
    (h : callFunction callee returns os s = .ok value s') (ho : GivesAll image a.frame os ws)
    (hcall : ∃ k, ∀ fuel, k ≤ fuel → invokeWith image fuel callee ws a.state = .ok w m)
    (hback : GivesBack image m.memory w v) (hkind : v.kind = returns) :
    ∃ code b, Appends code s s' ∧ Runs image code a b ∧ b.state = m ∧
      b.frame.stack = a.frame.stack ∧
      (∀ x ∈ s.used, b.frame.registers.get? x = a.frame.registers.get? x) ∧
      CarriesResult image b value v := by
  obtain ⟨k, hk⟩ := hcall
  have hop (x : String) : ∃ n, ∀ fuel, n ≤ fuel → ∀ previous,
      operate image (invokeWith image fuel) previous x a.frame (.call callee os) a.state =
        .ok (w, a.frame) m :=
    ⟨k, fun fuel hf previous => by
      rw [operate, bind_ok (operands_of_givesAll ho _), bind_ok (hk fuel hf)]
      rfl⟩
  unfold callFunction at h
  split at h
  · rename_i hnone
    obtain ⟨o, s1, h1, h2⟩ := bind_eq_ok.mp h
    obtain ⟨x, -, A, -⟩ := emit_adds h1
    cases h2
    cases w with
    | some w => exact absurd (hkind.trans hnone) hback.1
    | none =>
      exact ⟨_, ⟨a.frame, m⟩, A, runs_effect (b := ⟨a.frame, m⟩) (hop x), rfl, rfl, fun _ _ => rfl, hback⟩
  · rename_i hsome
    obtain ⟨o, s1, h1, h2⟩ := bind_eq_ok.mp h
    obtain ⟨x, rfl, A, -⟩ := emit_adds h1
    cases h2
    cases w with
    | none =>
      have hv : v = .none := hback
      rw [hv] at hkind
      exact absurd hkind.symm hsome
    | some w =>
      have q := quiet_set A.name_fresh (⟨a.frame, m⟩ : Snap) w
      exact ⟨_, (⟨a.frame, m⟩ : Snap).set x w, A, runs_result (b := ⟨a.frame, m⟩) (hop x), rfl, rfl,
        q.registers, hkind.symm, w, gives_set _ _ _ _, hback.2⟩

theorem simulates_call (hw : World f whole gs D M)
    (ih : ∀ node, Simulates image f whole gs D F M fuel node) (name : String) (args : List Node) :
    Simulates image f whole gs D F M (fuel + 1) (.call name args) := by
  intro previous earlier scope s r s' held frame st v st' a before hl hr hc hp hev hport hag hpl
  obtain ⟨d, os, s1, callee, s2, hname, hlen, h1, h2, value, h3, rfl⟩ := lower_call hl
  obtain ⟨d', inner, st1, u, hd, -, e1, e2, rfl⟩ := Evaluator.eval_call_ok hev
  obtain ⟨port1, port2⟩ := hport.call hd e1
  have hF : F.get? name = some d' := by
    rw [← hag.functions]
    exact hd
  have hself := hc name args (Node.mem_subtrees_self _)
  obtain rfl : d = d' := hself.same name d' d hF hname
  -- the arguments
  have hre : ∀ child ∈ args, child.isExpression = true ∧
      Regular earlier s.context.functions child := fun child hm => hr.operand rfl hm
  obtain ⟨m1, f1⟩ := lowerArguments_moves (fun n _ => lowers earlier n) hre hp.poised h1
  have p1 := m1.poised hp.poised
  have hfun := m1.declares.functions
  obtain ⟨I2, hcallee, irName, hsignature⟩ :=
    callee_moves (hfun ▸ hr.calls name args (Node.mem_subtrees_self _)) p1
      (show s1.context.functions.get? name = some d from hfun ▸ hname) h2
  obtain ⟨-, _, A3⟩ := callFunction_fits (by rw [hsignature]; rfl) h3
  have m2 := I2.moves scope p1.active
  have p2 := m2.poised p1
  have mR := m2.appends p1 A3
  obtain ⟨q, b1, xs, F1, G1, hos, hxs, rfl⟩ := simulated_arguments ih previous hlen hre
    (fun child hm => CallsAnswer.child rfl hc hm) h1 (hp.first m1 mR) e1 port1 hag hpl
  -- the call
  have hM : M.get? name = some callee :=
    hw.functions name callee (hp.settles.functions name callee (A3.functions ▸ hcallee))
  obtain ⟨w, m, k, hcall, hconcurs, hext, hback⟩ := hself.answers fuel (Nat.lt_succ_self _) name d
    callee xs before st1 u st' b1.state hF hM hxs e2 port2 G1.toConcurs
  obtain ⟨code, b2, A, hruns, rfl, hstack, hregs, hv⟩ :=
    callFunction_runs h3 hos ⟨k, hcall⟩ hback (kind_coerce _ _)
  have hkeeps : Keeps s2.used s'.used b1 b2 := ⟨hregs, fun _ _ => by rw [hstack], hext⟩
  have G2 := G1.moved hkeeps p2.known hconcurs.mirrors hconcurs.kinds hconcurs.covers
    (hconcurs.functions.trans G1.functions.symm) hconcurs.out
  refine ⟨q, b2, _, true, ?_, G2, returned_value hv, tells_same _ _ _⟩
  have hhoused := (m2.grown p1).evolves.housed (hp.second m1 mR).housed
  exact (F1.of_draft_eq I2.draft).appends ((m1.trans hp.poised m2).grown hp.poised).evolves.used A
    p2.active hhoused hp.settles hruns hkeeps

/-! ## All trees -/

theorem simulates_string (hw : World f whole gs D M) (t : String) :
    Simulates image f whole gs D F M (fuel + 1) (.string t) := by
  intro previous earlier scope s r s' held frame st v st' a before hl hr hc hp hev hport hag hpl
  have hportable := hport.value hev
  cases hev
  obtain ⟨o, h1, rfl⟩ := lower_string hl
  obtain ⟨o', s1, code, h2, A, -, run⟩ := textConstant_spec s t "str" (by decide)
  rw [h2] at h1
  cases h1
  obtain ⟨b, address, C, hg, htext⟩ := run image a (hw.serves hp.settles hag.serves)
  rw [cut_of_not_mem hportable.1] at htext
  have hcarries : Carries image b ⟨o, .string⟩ (.string t) :=
    ⟨rfl, _, hg, holds_string.mpr ⟨address, rfl, htext⟩, by simp [Value.kind]⟩
  exact simulated_appends hp A C.runs (C.quiet.keeps _) (hag.quiet C.quiet hp.poised.known) hpl
    hcarries

/-- The code of a tree that is lowered does what evaluating the tree does. -/
theorem simulates (hw : World f whole gs D M) (fuel : Nat) (node : Node) :
    Simulates image f whole gs D F M fuel node := by
  induction fuel generalizing node with
  | zero =>
    intro previous earlier scope s r s' held frame st v st' a before hl hr hc hp hev
    cases hev
  | succ fuel ih =>
    cases node with
    | sequence statements => exact simulates_sequence ih statements
    | number n =>
      intro previous earlier scope s r s' held frame st v st' a before hl hr hc hp hev hport hag hpl
      cases hev
      have hholds : Holds a.memory (.int (wrapInt n)) (.int (Int32.ofInt (wrapInt n))) :=
        holds_int.mpr ⟨_, rfl, toInt_ofInt_wrapInt n⟩
      exact simulates_constant rfl hl hp hag hpl
        ⟨rfl, _, gives_int32 _, hholds, by simp [Value.kind]⟩
    | float x =>
      intro previous earlier scope s r s' held frame st v st' a before hl hr hc hp hev hport hag hpl
      cases hev
      exact simulates_constant rfl hl hp hag hpl
        ⟨rfl, _, gives_double x, holds_float.mpr rfl, by simp [Value.kind]⟩
    | boolean flag =>
      intro previous earlier scope s r s' held frame st v st' a before hl hr hc hp hev hport hag hpl
      cases hev
      refine simulates_constant rfl hl hp hag hpl
        ⟨rfl, .bit flag, ?_, holds_bool.mpr rfl, by simp [Value.kind]⟩
      cases flag <;> exact gives_bit _
    | string t => exact simulates_string hw t
    | identifier x => exact simulates_identifier hw x
    | binary left op right => exact simulates_binary hw ih left right op
    | comparison left op right => exact simulates_comparison hw ih left right op
    | assign x e => exact simulates_assign hw ih x e
    | increment x =>
      intro previous earlier scope s r s' held frame st v st' a before hl hr hc hp hev hport hag hpl
      obtain ⟨t, h1, rfl⟩ := lower_increment hl
      refine simulated_step hw (fun i => ⟨i + 1, fun _ => rfl, ?_⟩) h1 hp hev hag hpl
      exact Int32.toInt_add i 1
    | decrement x =>
      intro previous earlier scope s r s' held frame st v st' a before hl hr hc hp hev hport hag hpl
      obtain ⟨t, h1, rfl⟩ := lower_decrement hl
      refine simulated_step hw (fun i => ⟨i - 1, fun _ => rfl, ?_⟩) h1 hp hev hag hpl
      exact Int32.toInt_sub i 1
    | branch condition thenPart elsePart => exact simulates_branch hw ih condition thenPart elsePart
    | loop start condition step body => exact simulates_loop hw ih start condition step body
    | print e => exact simulates_print hw ih e
    | random low high | define name params body =>
      intro previous earlier scope s r s' held frame st v st' a before hl hr
      exact absurd hr.avoids.self (by simp [Node.shape])
    | call name args => exact simulates_call hw ih name args
    | array elements => exact simulates_array hw ih elements
    | missing | bare =>
      intro previous earlier scope s r s' held frame st v st' a before hl
      simp [lower, fail, throw_run] at hl

end DualEngine.Lowering
