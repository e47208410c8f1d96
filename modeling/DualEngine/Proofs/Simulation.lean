import DualEngine.Proofs.Agreement

/-! # Code does what evaluation does

Wherever a tree is lowered and evaluated from states that agree, the code of the tree runs to the
point after it and the states agree again. The proof follows the recursion of evaluation.
-/
namespace DualEngine.Lowering
open IR Machine

variable {x : String} {sym : Symbol Slot}

/-- The function whose lowering ends in `whole` is part of a module with the globals `gs` and the
functions `M`, and `D` are the slots of the variables. -/
structure World (f : Function) (whole : State) (gs : List Global) (D : Bindings)
    (M : Table Signature) : Prop where
  blocks : f.blocks = whole.draft.blocks
  texts : ∀ name contents, Global.text name contents ∈ whole.globals →
    Global.text name contents ∈ gs
  functions : ∀ name callee, whole.functions.get? name = some callee → M.get? name = some callee
  proper : D.Proper
  single : ∀ x sym sym', D x sym → D x sym' → sym = sym'

/-- What a call gives back stands for the value. -/
def GivesBack (image : Image) (m : Memory) : Option Word → Value → Prop
  | some w, v => v.kind ≠ .none ∧ Stands image m v w
  | none, v => v = .none

/-- The functions of the module do what evaluating their bodies with so much fuel does. -/
def Answers (image : Image) (gs : List Global) (D : Bindings) (F : Table Definition)
    (M : Table Signature) (n : Nat) : Prop :=
  ∀ name d callee xs before st u st' m, F.get? name = some d → M.get? name = some callee →
    xs.length = d.params.length →
    Evaluator.eval n (Table.ofList (d.params.zip xs)) d.body st = .ok u st' →
    Evaluator.Portably n (Table.ofList (d.params.zip xs)) d.body st →
    Concurs image gs D F before st m →
    ∃ w m' k, (∀ fuel, k ≤ fuel →
        invokeWith image fuel callee (xs.map .double) m = .ok w m') ∧
      Concurs image gs D F before st' m' ∧ m.memory.Extends m'.memory ∧
      GivesBack image m'.memory w (u.coerce d.returns)

/-- Both engines know the same functions, and the module has them. -/
structure CallsAnswer (image : Image) (gs : List Global) (D : Bindings) (F G : Table Definition)
    (M : Table Signature) (fuel : Nat) : Prop where
  same : ∀ name d d', F.get? name = some d → G.get? name = some d' → d' = d
  answers : ∀ n < fuel, Answers image gs D F M n

section
variable (image : Image) (f : Function) (whole : State) (gs : List Global) (D : Bindings)
  (F : Table Definition) (M : Table Signature)

/-- The code for a tree gets to the point after it, in agreement with the evaluation. -/
def Simulated (params : Table Operand) (before : String) (frame : Evaluator.Frame) (node : Node)
    (s : State) (previous : String) (a : Snap) (s' : State) (r : Lowered) (st' : Evaluator.State)
    (v : Value) : Prop :=
  ∃ previous' b u ran, Follows image f whole s previous a s' previous' b ∧
    Accords image gs D F params before frame st' b ∧ Returned image b r u ran ∧ Tells node r u v ran

def Simulates (fuel : Nat) (node : Node) : Prop :=
  ∀ previous ⦃earlier scope s r s' held frame st v st' a before⦄,
    lower earlier scope node s = .ok r s' → Regular earlier s.context.functions node →
    (∀ name args, Node.call name args ∈ node.subtrees →
      CallsAnswer image gs D F s.context.functions M fuel) →
    Path held scope s s' whole D → Evaluator.eval fuel frame node st = .ok v st' →
    Evaluator.Portably fuel frame node st →
    Accords image gs D F scope.params before frame st a → Places whole s a →
    Simulated image f whole gs D F scope.params before frame node s previous a s' r st' v

end

variable {image : Image} {f : Function} {whole : State} {gs : List Global} {D : Bindings}
  {F : Table Definition} {M : Table Signature} {fuel : Nat} {node : Node}
  {earlier : Earlier} {scope : Scope} {s s' s1 : State} {r : Lowered} {held : List String}
  {frame : Evaluator.Frame} {st st' : Evaluator.State} {v : Value} {previous before : String}
  {a b : Snap} {code : List Instruction}

theorem World.serves {m : Memory} (hw : World f whole gs D M) (hset : Settles held s whole)
    (h : Serves image m gs) : Serves image m s.globals :=
  ⟨fun name contents hg => h.texts name contents (hw.texts name contents (hset.globals hg)),
    h.constants, h.library⟩

/-- An expression's operand stands for its value. -/
theorem Simulates.expression (h : Simulates image f whole gs D F M fuel node)
    (he : node.isExpression = true) (previous : String)
    (hl : lower earlier scope node s = .ok r s') (hr : Regular earlier s.context.functions node)
    (hc : ∀ name args, Node.call name args ∈ node.subtrees →
      CallsAnswer image gs D F s.context.functions M fuel)
    (hp : Path held scope s s' whole D) (hev : Evaluator.eval fuel frame node st = .ok v st')
    (hport : Evaluator.Portably fuel frame node st)
    (hag : Accords image gs D F scope.params before frame st a) (hpl : Places whole s a) :
    ∃ previous' b, Follows image f whole s previous a s' previous' b ∧
      Accords image gs D F scope.params before frame st' b ∧ CarriesResult image b r.value v := by
  obtain ⟨previous', b, u, ran, hf, hag', hret, ht⟩ := h previous hl hr hc hp hev hport hag hpl
  obtain rfl := ht.expression he
  exact ⟨previous', b, hf, hag', hret.value⟩

/-- A tree whose code is appended to the current block. -/
theorem simulated_appends (hp : Path held scope s s' whole D) (A : Appends code s s')
    (hr : Runs image code a b) (hk : Keeps s.used s'.used a b)
    (hag : Accords image gs D F scope.params before frame st' b) (hpl : Places whole s a)
    {t : Option Typed} (hv : CarriesResult image b t v) :
    Simulated image f whole gs D F scope.params before frame node s previous a s' { value := t } st'
      v :=
  ⟨previous, b, v, true,
    (Follows.refl previous hpl).appends (fun _ h => h) A hp.poised.active hp.housed hp.settles hr hk,
    hag, returned_value hv, tells_same node _ v⟩

/-! ## Constants and variables -/

theorem toInt_ofInt_wrapInt (n : Int) : (Int32.ofInt (wrapInt n)).toInt = wrapInt n := by
  rw [toInt_wrapInt]
  exact Int.bmod_bmod

theorem simulates_constant {t : Typed} (hl : lower earlier scope node = pure { value := some t })
    (h : lower earlier scope node s = .ok r s') (hp : Path held scope s s' whole D)
    (hag : Accords image gs D F scope.params before frame st a) (hpl : Places whole s a)
    (hv : Carries image a t v) :
    Simulated image f whole gs D F scope.params before frame node s previous a s' r st v := by
  rw [hl] at h
  cases h
  exact simulated_appends hp (.refl s) (Runs.nil a) (Keeps.refl _ _) hag hpl hv

theorem simulates_identifier (hw : World f whole gs D M) (x : String) :
    Simulates image f whole gs D F M (fuel + 1) (.identifier x) := by
  intro previous earlier scope s r s' held frame st v st' a before hl hr hc hp hev hport hag hpl
  obtain ⟨t, h1, rfl⟩ := lower_identifier hl
  obtain ⟨rfl, hv⟩ := Evaluator.lookup_ok hev
  rcases hv with ⟨y, hy, rfl⟩ | ⟨hx, hv⟩
  · obtain ⟨o, ho, hg⟩ := hag.bound x y hy
    rw [loadName_param ho] at h1
    cases h1
    have hcarries : Carries image a ⟨o, .float⟩ (.float y) :=
      ⟨rfl, _, hg, holds_float.mpr rfl, by simp [Value.kind]⟩
    exact simulated_appends hp (.refl s) (Runs.nil a) (Keeps.refl _ _) hag hpl hcarries
  · have hfree := hag.free x hx
    rcases loadName_inv h1 with ⟨o, ho⟩ | ⟨sym, hsym⟩
    · simp [hfree] at ho
    · obtain ⟨y, s2, code, h2, A, -, run⟩ :=
        loadName_spec hfree hsym (hp.poised.slotted.proper.kind x sym hsym)
      rw [h2] at h1
      cases h1
      obtain ⟨hk, w, hw', hrests⟩ := hag.read (hp.context hsym) hv
      have C := run image a w (hw.serves hp.settles hag.serves) hw'
      have hcarries : Carries image (a.set y w) ⟨.register y (irType sym.kind), sym.kind⟩ v :=
        ⟨hk.symm, w, gives_set _ _ _ _, hrests.stands⟩
      exact simulated_appends hp A C.runs (C.quiet.keeps _) (hag.quiet C.quiet hp.poised.known) hpl
        hcarries

/-- A variable gets a value, and so does the slot that stands for it from then on. -/
theorem Accords.reassigned {D' : Bindings} {params : Table Operand} {used used' : List String}
    {w : Word} (hag : Accords image gs D F params before frame st a) (hk : Keeps used used' a b)
    (hp : ∀ x o, params.get? x = some o → o.Known used) (hproper : D'.Proper)
    (hx : ∀ sym', D' x sym' ↔ sym' = sym) (hother : ∀ y sym', y ≠ x → (D' y sym' ↔ D y sym'))
    (hcells : b.memory.cells = a.memory.cells.insert sym.storage.symbol w)
    (hrests : Rests image b.memory v w) (hkind : v.kind = sym.kind)
    (hout : b.state.out = a.state.out) (k : Kind) :
    Accords image gs D' F params before frame (st.commit (st.context.add x v k)) b := by
  refine hag.moved hk hp ?_ ?_ ?_ rfl (by rw [hout]; exact hag.out)
  · refine hag.mirrors.assign hcells hk.heap hrests (hproper.name x sym ((hx sym).mpr rfl)) hproper ?_
      (fun y sym' h' hne => (hother y sym' hne).mp h') k
    intro sym' h'
    rw [(hx sym').mp h']
    exact ⟨rfl, hkind.symm⟩
  · intro z sym' u hz hu
    simp only [Evaluator.State.commit, Context.value?_add] at hu
    by_cases hxz : x = z
    · subst hxz
      rw [if_pos rfl, Option.some.injEq] at hu
      rw [(hx sym').mp hz, ← hu, hkind]
    · rw [if_neg hxz] at hu
      exact hag.kinds z sym' u ((hother z sym' (Ne.symm hxz)).mp hz) hu
  · intro z u hu
    simp only [Evaluator.State.commit, Context.value?_add] at hu
    by_cases hxz : x = z
    · exact ⟨sym, hxz ▸ (hx sym).mpr rfl⟩
    · rw [if_neg hxz] at hu
      obtain ⟨sym', hD⟩ := hag.covers z u hu
      exact ⟨sym', (hother z sym' (Ne.symm hxz)).mpr hD⟩

/-- A variable and its slot get a value of the slot's kind. -/
theorem Accords.assigned (hw : World f whole gs D M) {used used' : List String} {w : Word}
    (hag : Accords image gs D F scope.params before frame st a) (hk : Keeps used used' a b)
    (hp : ∀ x o, scope.params.get? x = some o → o.Known used) (hD : D x sym)
    (hcells : b.memory.cells = a.memory.cells.insert sym.storage.symbol w)
    (hrests : Rests image b.memory v w) (hkind : v.kind = sym.kind)
    (hout : b.state.out = a.state.out) (k : Kind) :
    Accords image gs D F scope.params before frame (st.commit (st.context.add x v k)) b :=
  hag.reassigned hk hp hw.proper
    (fun sym' => ⟨fun h' => hw.single x sym' sym h' hD, fun h' => h' ▸ hD⟩) (fun _ _ _ => Iff.rfl)
    hcells hrests hkind hout k

/-- A step of a variable, on both sides. -/
theorem simulated_step (hw : World f whole gs D M) {op : BinaryOp} {delta : Int} {t : Typed}
    (hop : ∀ i : Int32, ∃ j : Int32,
      (∀ m, binary op (.int i) (.int 1) m = .ok (.int j) m) ∧ j.toInt = wrapInt (i.toInt + delta))
    (h : stepVariable scope x op s = .ok t s') (hp : Path held scope s s' whole D)
    (hev : Evaluator.stepVariable frame x delta st = .ok v st')
    (hag : Accords image gs D F scope.params before frame st a) (hpl : Places whole s a) :
    Simulated image f whole gs D F scope.params before frame node s previous a s'
      { value := some t } st' v := by
  obtain ⟨hpar, sym, hx, hint⟩ := stepVariable_inv h
  have hkind := hp.poised.slotted.proper.kind x sym hx
  obtain ⟨y, s2, code, h2, A, -, run⟩ := stepVariable_spec op hpar hx hkind hint
  rw [h2] at h
  cases h
  obtain ⟨-, n, hn, rfl, rfl⟩ := Evaluator.stepVariable_ok hev
  obtain ⟨-, w, hcell, hrests⟩ := hag.read (hp.context hx) hn
  obtain ⟨i, rfl, rfl⟩ := holds_int.mp hrests.1
  obtain ⟨j, hj, hstep⟩ := hop i
  obtain ⟨b, hruns, hkeeps, hmem, hout, hgives⟩ :=
    run image a i j (hw.serves hp.settles hag.serves) hcell hj
  have hholds : Holds b.memory (.int (wrapInt (i.toInt + delta))) (.int j) :=
    holds_int.mpr ⟨j, rfl, hstep⟩
  have hcarries : Carries image b ⟨.register y .i32, .int⟩ (.int (wrapInt (i.toInt + delta))) :=
    ⟨rfl, _, hgives, hholds, by simp [Value.kind]⟩
  exact simulated_appends hp A hruns hkeeps (hag.assigned hw hkeeps hp.poised.known
    (hp.context hx) (by rw [hmem]; rfl) ⟨hholds, trivial⟩ hint.symm hout .int) hpl hcarries

/-! ## Operators -/

theorem CallsAnswer.child {child : Node} {G G' : Table Definition} (hg : G' = G)
    (h : ∀ name args, Node.call name args ∈ node.subtrees →
      CallsAnswer image gs D F G M (fuel + 1))
    (hc : child ∈ node.children) :
    ∀ name args, Node.call name args ∈ child.subtrees → CallsAnswer image gs D F G' M fuel := by
  intro name args hm
  have h' := h name args (Node.subtrees_subset hc hm)
  subst hg
  exact ⟨h'.same, fun n hn => h'.answers n (hn.trans (Nat.lt_succ_self _))⟩

/-- The code for two operands, and then code that computes something from them. -/
theorem simulated_operands (ih : ∀ node, Simulates image f whole gs D F M fuel node)
    (previous : String) {left right : Node} {l r : Lowered} {s2 : State} {u w : Value}
    {st1 : Evaluator.State} (hml : left ∈ node.children) (hmr : right ∈ node.children)
    (hl : left.isExpression = true ∧ Regular earlier s.context.functions left)
    (hr : right.isExpression = true ∧ Regular earlier s.context.functions right)
    (hc : ∀ name args, Node.call name args ∈ node.subtrees →
      CallsAnswer image gs D F s.context.functions M (fuel + 1))
    (h1 : lower earlier scope left s = .ok l s1) (h2 : lower earlier scope right s1 = .ok r s2)
    (A : Appends code s2 s') (hp : Path held scope s s' whole D)
    (e1 : Evaluator.eval fuel frame left st = .ok u st1)
    (e2 : Evaluator.eval fuel frame right st1 = .ok w st')
    (port1 : Evaluator.Portably fuel frame left st) (port2 : Evaluator.Portably fuel frame right st1)
    (hag : Accords image gs D F scope.params before frame st a) (hpl : Places whole s a) :
    ∃ b, Serves image b.memory gs ∧ CarriesResult image b l.value u ∧
      CarriesResult image b r.value w ∧ ∀ c t v, Computes image s2.used code b c →
        Carries image c t v → Simulated image f whole gs D F scope.params before frame node s
          previous a s' { value := some t } st' v := by
  obtain ⟨m1, m2, f1, -, -⟩ :=
    (lowers earlier left).operands (lowers earlier right) hl hr hp.poised h1 h2
  have hfun := m1.declares.functions
  have p1 := m1.poised hp.poised
  have u1 := (m1.grown hp.poised).evolves.used
  have u2 := (m2.grown p1).evolves.used
  have m3 := moves_appends scope (m2.poised p1).active A
  have rest := hp.second m1 (m2.trans p1 m3)
  obtain ⟨q1, b1, F1, G1, C₁⟩ := (ih left).expression hl.1 previous h1 hl.2
    (CallsAnswer.child rfl hc hml) (hp.first m1 (m2.trans p1 m3)) e1 port1 hag hpl
  obtain ⟨q2, b2, F2, G2, C₂⟩ := (ih right).expression hr.1 q1 h2 (hfun ▸ hr.2)
    (CallsAnswer.child hfun hc hmr) (rest.first m2 m3) e2 port2 G1 F1.places
  have last := rest.second m2 m3
  refine ⟨b2, G2.serves, C₁.kept f1 F2.keeps, C₂, fun c t v C hcarries => ?_⟩
  refine ⟨q2, c, v, true, ?_, G2.quiet C.quiet last.poised.known, returned_value hcarries,
    tells_same _ _ v⟩
  exact (F1.trans F2 u1 u2).appends (fun _ h => u2 (u1 h)) A last.poised.active last.housed
    hp.settles C.runs (C.quiet.keeps _)

theorem simulates_binary (hw : World f whole gs D M)
    (ih : ∀ node, Simulates image f whole gs D F M fuel node) (left right : Node) (op : ArithOp) :
    Simulates image f whole gs D F M (fuel + 1) (.binary left op right) := by
  intro previous earlier scope s r s' held frame st v st' a before hl hr hc hp hev hport hag hpl
  have hml : left ∈ (Node.binary left op right).children := by simp [Node.children]
  have hmr : right ∈ (Node.binary left op right).children := by simp [Node.children]
  have hleft := hr.operand rfl hml
  have hright := hr.operand rfl hmr
  obtain ⟨-, l, s1, r', s2, t, h1, h2, h3, rfl⟩ := lower_binary hl
  obtain ⟨lv, st1, rv, e1, e2, hop⟩ := Evaluator.eval_binary_ok hev
  obtain ⟨port1, port2, hover⟩ := hport.binary e1 e2
  obtain ⟨-, -, -, f1, f2⟩ :=
    (lowers earlier left).operands (lowers earlier right) hleft hright hp.poised h1 h2
  obtain ⟨k, hk⟩ := arithmetic_inv h3
  obtain ⟨t', s3, code, h3', A, -, -, run⟩ := arithmetic_spec f1 f2 hk
  rw [h3'] at h3
  cases h3
  obtain ⟨b, hserves, C₁, C₂, finish⟩ := simulated_operands ih previous hml hmr hleft hright hc h1 h2
    A hp e1 e2 port1 port2 hag hpl
  obtain ⟨c, C, hcarries⟩ := run image b lv rv v (hw.serves hp.settles hserves) C₁ C₂
    (port1.value e1) (port2.value e2) hop (hport.value hev) hover
  exact finish c _ v C hcarries

theorem simulates_comparison (hw : World f whole gs D M)
    (ih : ∀ node, Simulates image f whole gs D F M fuel node) (left right : Node)
    (op : CompareOp) : Simulates image f whole gs D F M (fuel + 1) (.comparison left op right) := by
  intro previous earlier scope s r s' held frame st v st' a before hl hr hc hp hev hport hag hpl
  have hml : left ∈ (Node.comparison left op right).children := by simp [Node.children]
  have hmr : right ∈ (Node.comparison left op right).children := by simp [Node.children]
  have hleft := hr.operand rfl hml
  have hright := hr.operand rfl hmr
  obtain ⟨hop, l, s1, r', s2, t, h1, h2, h3, rfl⟩ := lower_comparison hl
  obtain ⟨lv, st1, rv, bit, e1, e2, hbit, rfl⟩ := Evaluator.eval_comparison_ok hev
  obtain ⟨port1, port2⟩ := hport.comparison e1
  obtain ⟨-, -, -, f1, f2⟩ :=
    (lowers earlier left).operands (lowers earlier right) hleft hright hp.poised h1 h2
  obtain ⟨tl, tr, hvl, hvr, hk⟩ := comparison_inv h3
  rw [hvl] at f1 h3
  rw [hvr] at f2 h3
  obtain ⟨o, s3, code, h3', A, -, run⟩ := comparison_spec hop f1 f2 hk
  rw [h3'] at h3
  cases h3
  obtain ⟨b, hserves, C₁, C₂, finish⟩ := simulated_operands ih previous hml hmr hleft hright hc h1 h2
    A hp e1 e2 port1 port2 hag hpl
  rw [hvl] at C₁
  rw [hvr] at C₂
  obtain ⟨c, C, hgives⟩ := run image b lv rv bit (hw.serves hp.settles hserves) C₁ C₂
    (port1.value e1) (port2.value e2) hbit
  exact finish c _ _ C ⟨rfl, _, hgives, holds_bool.mpr rfl, by simp [Value.kind]⟩

/-! ## Statements -/

/-- Where no name gets another slot, finding the slot of an assignment leaves the function alone. -/
theorem slotFor_novel (hp : Poised scope s) {k : Kind} {slot : Slot} (hk : k ≠ .none)
    (h : slotFor scope x k s = .ok slot s') (hn : ∀ new, Declares s s' new → Novel s new) :
    s'.draft = s.draft ∧ s'.context.get? x = some ⟨slot, k⟩ := by
  rcases slotFor_cases h with ⟨hx, rfl⟩ | ⟨hother, rfl, s1, h1, rfl⟩
  · exact ⟨rfl, hx⟩
  have hget : (s1.binding x ⟨x, s.nextSlot, k⟩ k).context.get? x = some ⟨⟨x, s.nextSlot, k⟩, k⟩ := by
    rw [get?_binding, if_pos rfl]
  refine ⟨?_, hget⟩
  cases hl : scope.outermost with
  | none =>
    simp only [seedSlot, hl] at h1
    cases h1
    rfl
  | some label =>
    cases hx : s.context.get? x with
    | none =>
      simp only [seedSlot, hl, hx] at h1
      cases h1
      rfl
    | some sym =>
      have hdiff : (⟨x, s.nextSlot, k⟩ : Slot).kind ≠ sym.kind := Ne.symm (hother sym hx)
      obtain ⟨s2, code, h2, A, -⟩ := seedSlot_spec (s := s.withSlot ⟨x, s.nextSlot, k⟩) hl
        (hp.slotted.proper.kind x sym hx) hk hdiff
      rw [hx, h2] at h1
      cases h1
      have hnone := (hn _ (declares_binding s x hk hother A s.draft.current)).unbound _
        (List.mem_singleton_self _)
      simp [hx] at hnone

theorem here_of_draft_eq (h : s'.draft = s.draft) (previous : String) (a : Snap) :
    here whole s' previous a = here whole s previous a := by
  simp only [here, State.block?, h]

theorem Places.of_draft_eq (hp : Places whole s a) (h : s'.draft = s.draft) :
    Places whole s' a := by
  intro k b i hk hb hi hcell hnow
  refine hp k b i hk hb hi hcell ?_
  simpa only [State.block?, h] using hnow

theorem Follows.of_draft_eq {p p' : String} (hf : Follows image f whole s p a s1 p' b)
    (h : s'.draft = s1.draft) : Follows image f whole s p a s' p' b := by
  refine ⟨?_, ?_, hf.places.of_draft_eq h⟩
  · rw [here_of_draft_eq h]
    exact hf.leads
  · have hused : s'.used = s1.used := by rw [State.used, State.used, h]
    rw [hused]
    exact hf.keeps

theorem simulates_assign (hw : World f whole gs D M)
    (ih : ∀ node, Simulates image f whole gs D F M fuel node) (x : String) (e : Node) :
    Simulates image f whole gs D F M (fuel + 1) (.assign x e) := by
  intro previous earlier scope s r s' held frame st v st' a before hl hr hc hp hev hport hag hpl
  have hme : e ∈ (Node.assign x e).children := by simp [Node.children]
  obtain ⟨he, hre⟩ := hr.assigned
  obtain ⟨-, l, s1, t, h1, h2, rfl⟩ := lower_assign hl
  obtain ⟨st1, e1, -, -, rfl⟩ := Evaluator.eval_assign_ok hev
  obtain ⟨m1, f1, -⟩ := (lowers earlier e).expression he hre hp.poised h1
  have p1 := m1.poised hp.poised
  have u1 := (m1.grown hp.poised).evolves.used
  obtain ⟨-, -, new, m2⟩ := assign_moves p1 f1.value h2
  have rest := hp.second m1 m2
  obtain ⟨q, b1, F1, G1, C₁⟩ := (ih e).expression he previous h1 hre
    (CallsAnswer.child rfl hc hme) (hp.first m1 m2) e1 hport.assign hag hpl
  -- the slot
  obtain ⟨slot, s2, hvalue, hk, h3, h4⟩ := assign_inv h2
  have ht := f1.value
  rw [hvalue] at ht C₁
  obtain ⟨hslot, new', m3⟩ := slotFor_moves p1 hk h3
  have u3 := (m3.grown p1).evolves.used
  obtain ⟨s3, code, h5, A, run⟩ := storeSlot_spec (Fits.mono ht u3) hslot
  rw [h5] at h4
  cases h4
  have m4 := moves_appends scope (m3.poised p1).active A
  have here' := rest.first m3 m4
  have last := rest.second m3 m4
  obtain ⟨hdraft, hget⟩ := slotFor_novel p1 hk h3 fun _ hd => here'.novel hd
  -- the code that stores the value
  obtain ⟨b2, w, hruns, hkeeps, hcells, hrests, hout⟩ :=
    run image b1 v (hw.serves hp.settles G1.serves) C₁
  have hkeeps' := Carries.kept C₁ (Fits.mono ht u3) hkeeps
  refine ⟨q, b2, v, true, ?_, ?_, returned_value hkeeps', tells_same _ _ v⟩
  · refine (F1.of_draft_eq hdraft).appends ?_ A last.poised.active last.housed hp.settles hruns hkeeps
    exact fun _ h => u3 (u1 h)
  · exact G1.assigned hw hkeeps last.poised.known (here'.bound x _ hget) hcells hrests C₁.1.symm
      hout v.kind

theorem simulates_print (hw : World f whole gs D M)
    (ih : ∀ node, Simulates image f whole gs D F M fuel node) (e : Node) :
    Simulates image f whole gs D F M (fuel + 1) (.print e) := by
  intro previous earlier scope s r s' held frame st v st' a before hl hr hc hp hev hport hag hpl
  have hme : e ∈ (Node.print e).children := by simp [Node.children]
  obtain ⟨he, hre⟩ := hr.operand rfl hme
  obtain ⟨l, s1, h1, h2, rfl⟩ := lower_print hl
  obtain ⟨st1, e1, rfl⟩ := Evaluator.eval_print_ok hev
  obtain ⟨port1, harray⟩ := hport.print e1
  obtain ⟨m1, f1, -⟩ := (lowers earlier e).expression he hre hp.poised h1
  have p1 := m1.poised hp.poised
  have u1 := (m1.grown hp.poised).evolves.used
  have m2 := printValue_moves p1 f1.value h2
  obtain ⟨q, b1, F1, G1, C₁⟩ := (ih e).expression he previous h1 hre
    (CallsAnswer.child rfl hc hme) (hp.first m1 m2) e1 port1 hag hpl
  have last := hp.second m1 m2
  obtain ⟨s2, code, h3, A, run⟩ := printValue_spec f1.value (by rw [C₁.kindOf]; exact harray)
  rw [h3] at h2
  cases h2
  obtain ⟨b2, hruns, hkeeps, hcells, hout⟩ :=
    run image b1 v (hw.serves hp.settles G1.serves) C₁ (port1.value e1)
  refine ⟨q, b2, v, true, ?_, ?_, returned_value (C₁.kept f1.value hkeeps), tells_same _ _ v⟩
  · exact F1.appends u1 A p1.active last.housed hp.settles hruns hkeeps
  · refine G1.moved hkeeps p1.known (G1.mirrors.extend hkeeps.heap hcells) G1.kinds G1.covers rfl ?_
    rw [hout, ← String.append_assoc, ← String.append_assoc, ← G1.out]

/-! ## Lists of trees -/

theorem simulated_elements (ih : ∀ node, Simulates image f whole gs D F M fuel node)
    (previous : String) {nodes : List Node} {os : List Operand} {vs : List Value} {ns : List Int}
    (hr : ∀ node ∈ nodes, node.isExpression = true ∧ Regular earlier s.context.functions node)
    (hc : ∀ node ∈ nodes, ∀ name args, Node.call name args ∈ node.subtrees →
      CallsAnswer image gs D F s.context.functions M fuel)
    (h : lowerElements earlier scope nodes s = .ok os s') (hp : Path held scope s s' whole D)
    (hev : Evaluator.each (Evaluator.eval fuel frame) nodes st = .ok vs st')
    (hns : Evaluator.elements vs = .ok ns) (hport : Evaluator.PortablyAll fuel frame nodes st)
    (hag : Accords image gs D F scope.params before frame st a) (hpl : Places whole s a) :
    ∃ previous' b is, Follows image f whole s previous a s' previous' b ∧
      Accords image gs D F scope.params before frame st' b ∧ GiveInts image b.frame os is ∧
      is.map Int32.toInt = ns := by
  induction nodes generalizing s os vs ns st a previous with
  | nil =>
    cases h
    cases hev
    cases hns
    exact ⟨previous, a, [], .refl previous hpl, hag, .nil, rfl⟩
  | cons node rest ihr =>
    obtain ⟨l, s1, o, os', h1, hvalue, h2, rfl⟩ := lowerElements_cons h
    obtain ⟨u, st1, us, e1, e2, rfl⟩ := Evaluator.each_cons_ok hev
    obtain ⟨port1, port2⟩ := hport.cons e1
    obtain ⟨he, hre⟩ := hr node List.mem_cons_self
    obtain ⟨m1, f1, -⟩ := (lowers earlier node).expression he hre hp.poised h1
    have hfun := m1.declares.functions
    have hr' : ∀ n ∈ rest, n.isExpression = true ∧ Regular earlier s1.context.functions n :=
      fun n hn => hfun ▸ hr n (List.mem_cons_of_mem _ hn)
    obtain ⟨m2, -⟩ := lowerElements_moves (fun n _ => lowers earlier n) hr' (m1.poised hp.poised) h2
    obtain ⟨q, b1, F1, G1, C₁⟩ := (ih node).expression he previous h1 hre
      (hc node List.mem_cons_self) (hp.first m1 m2) e1 port1 hag hpl
    have ht := f1.value
    rw [hvalue] at ht C₁
    obtain ⟨hkind, w, hg, hw⟩ := C₁
    cases u with
    | int n =>
      obtain ⟨i, rfl, rfl⟩ := holds_int.mp hw.1
      obtain ⟨ns', hns', hcons⟩ : ∃ ns', Evaluator.elements us = .ok ns' ∧ ns = i.toInt :: ns' := by
        simp only [Evaluator.elements] at hns
        cases hus : Evaluator.elements us with
        | error cause =>
          rw [hus] at hns
          cases hns
        | ok ns' =>
          rw [hus] at hns
          cases hns
          exact ⟨ns', rfl, rfl⟩
      obtain ⟨q', b2, is, F2, G2, I2, hmap⟩ := ihr q hr'
        (fun n hn => hfun ▸ hc n (List.mem_cons_of_mem _ hn)) h2 (hp.second m1 m2) e2 hns' port2 G1
        F1.places
      refine ⟨q', b2, i :: is, ?_, G2, .cons ?_ I2, by rw [List.map_cons, hmap, hcons]⟩
      · exact F1.trans F2 (m1.grown hp.poised).evolves.used
          (m2.grown (m1.poised hp.poised)).evolves.used
      · exact hg.keep ht.known F2.keeps.registers
    | _ => cases hkind

theorem simulates_array (hw : World f whole gs D M)
    (ih : ∀ node, Simulates image f whole gs D F M fuel node) (elements : List Node) :
    Simulates image f whole gs D F M (fuel + 1) (.array elements) := by
  intro previous earlier scope s r s' held frame st v st' a before hl hr hc hp hev hport hag hpl
  obtain ⟨os, s1, t, h1, h2, rfl⟩ := lower_array hl
  obtain ⟨vs, ns, e1, hns, rfl⟩ := Evaluator.eval_array_ok hev
  have hre : ∀ child ∈ elements, child.isExpression = true ∧
      Regular earlier s.context.functions child := fun child hm => hr.operand rfl hm
  obtain ⟨m1, f1⟩ := lowerElements_moves (fun n _ => lowers earlier n) hre hp.poised h1
  obtain ⟨o, s2, code, h3, A, -, run⟩ := buildArray_spec f1
  rw [h3] at h2
  cases h2
  have p1 := m1.poised hp.poised
  have m2 := moves_appends scope p1.active A
  obtain ⟨q, b1, is, F1, G1, I1, rfl⟩ := simulated_elements ih previous hre
    (fun child hm => CallsAnswer.child rfl hc hm) h1 (hp.first m1 m2) e1 hns hport.array hag hpl
  have hsize : is.length < 2 ^ 31 := by
    have hlen := hport.value hev
    simpa only [Value.Portable, List.length_map] using hlen
  obtain ⟨b2, C, hcarries⟩ := run image b1 is (hw.serves hp.settles G1.serves) I1 hsize
  refine ⟨q, b2, _, true, ?_, G1.quiet C.quiet p1.known, returned_value hcarries, tells_same _ _ _⟩
  exact F1.appends (m1.grown hp.poised).evolves.used A p1.active (hp.second m1 m2).housed hp.settles
    C.runs (C.quiet.keeps _)

/-- Statements in order; the last one gives the value. -/
theorem simulated_statements (ih : ∀ node, Simulates image f whole gs D F M fuel node)
    (previous : String) {node : Node} {rest : List Node} {last : Lowered} {w : Value}
    (hr : ∀ n ∈ node :: rest, Regular earlier s.context.functions n)
    (hc : ∀ n ∈ node :: rest, ∀ name args, Node.call name args ∈ n.subtrees →
      CallsAnswer image gs D F s.context.functions M fuel)
    (h : lowerAll earlier scope (node :: rest) last s = .ok r s')
    (hp : Path held scope s s' whole D)
    (hev : Evaluator.inOrder (Evaluator.eval fuel frame) (node :: rest) w st = .ok v st')
    (hport : Evaluator.PortablyAll fuel frame (node :: rest) st)
    (hag : Accords image gs D F scope.params before frame st a) (hpl : Places whole s a) :
    Simulated image f whole gs D F scope.params before frame (.sequence (node :: rest)) s previous
      a s' r st' v := by
  induction rest generalizing s node last w st a previous with
  | nil =>
    obtain ⟨l, s1, h1, h2⟩ := lowerAll_cons h
    cases h2
    obtain ⟨u, st1, e1, e2⟩ := bind_eq_ok.mp hev
    cases e2
    obtain ⟨q, b, u, ran, hf, hag', hret, ht⟩ := ih node previous h1 (hr node List.mem_cons_self)
      (hc node List.mem_cons_self) hp e1 (hport.cons e1).1 hag hpl
    exact ⟨q, b, u, ran, hf, hag', hret, ht.plain, ht.value⟩
  | cons next rest ihr =>
    obtain ⟨l, s1, h1, h2⟩ := lowerAll_cons h
    obtain ⟨u, st1, e1, e2⟩ := bind_eq_ok.mp hev
    obtain ⟨port1, port2⟩ := hport.cons e1
    obtain ⟨new, m1, f1, -⟩ := lowers earlier node scope s l s1 (hr node List.mem_cons_self) hp.poised
      h1
    have hfun := m1.declares.functions
    have hr' : ∀ n ∈ next :: rest, Regular earlier s1.context.functions n :=
      fun n hn => hfun ▸ hr n (List.mem_cons_of_mem _ hn)
    obtain ⟨new', m2, -⟩ := lowerAll_moves (fun n _ => lowers earlier n) hr' (m1.poised hp.poised) f1
      h2
    obtain ⟨q, b, u', ran, F1, G1, -, -⟩ := ih node previous h1 (hr node List.mem_cons_self)
      (hc node List.mem_cons_self) (hp.first m1 m2) e1 port1 hag hpl
    obtain ⟨q', b', u'', ran', F2, G2, R2, T2⟩ := ihr q hr'
      (fun n hn => hfun ▸ hc n (List.mem_cons_of_mem _ hn)) h2 (hp.second m1 m2) e2 port2 G1 F1.places
    refine ⟨q', b', u'', ran', ?_, G2, R2, T2.plain, T2.value⟩
    exact F1.trans F2 (m1.grown hp.poised).evolves.used
      (m2.grown (m1.poised hp.poised)).evolves.used

theorem simulates_sequence (ih : ∀ node, Simulates image f whole gs D F M fuel node)
    (statements : List Node) : Simulates image f whole gs D F M (fuel + 1) (.sequence statements) := by
  intro previous earlier scope s r s' held frame st v st' a before hl hr hc hp hev hport hag hpl
  cases statements with
  | nil =>
    cases hl
    cases hev
    exact ⟨previous, a, .none, true, .refl previous hpl, hag, returned_value rfl, tells_same _ _ _⟩
  | cons node rest =>
    exact simulated_statements (w := .none) ih previous hr.statements
      (fun n hn => CallsAnswer.child rfl hc hn) hl hp hev hport.sequence hag hpl

end DualEngine.Lowering
