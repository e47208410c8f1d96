import DualEngine.Prediction
import DualEngine.Proofs.Trees

/-! # What a prediction depends on

A prediction reads the context and what is bound beside it only through the kinds of names and the
return kinds of functions. Which of the two says it does not matter.
-/
namespace DualEngine.Prediction

variable {σ τ : Type}

/-- The kind that is known for a name. -/
def name? (c : Context σ) (s : State) (x : String) : Option Kind :=
  (s.names.get? x).or ((c.get? x).map Symbol.kind)

/-- The return kind that is known for a function. -/
def function? (c : Context σ) (s : State) (f : String) : Option Kind :=
  (s.functions.get? f).or ((c.getFunction? f).map Definition.returns)

theorem nameKind_eq (c : Context σ) (s : State) (x : String) :
    nameKind c s x = (name? c s x).getD .none := by
  unfold nameKind name?
  cases s.names.get? x with
  | some k => rfl
  | none => cases c.get? x <;> rfl

theorem functionKind_eq (c : Context σ) (s : State) (f : String) :
    functionKind c s f = (function? c s f).getD .none := by
  unfold functionKind function?
  cases s.functions.get? f with
  | some k => rfl
  | none => cases c.getFunction? f <;> rfl

/-- The same is known of names and of functions. -/
structure Alike (c : Context σ) (s : State) (c' : Context τ) (s' : State) : Prop where
  names : ∀ x, name? c s x = name? c' s' x
  functions : ∀ f, function? c s f = function? c' s' f

variable {c : Context σ} {c' : Context τ} {s s' : State}

/-- The functions that were settled on the way are not read. -/
theorem Alike.settled (h : Alike c s c' s') (l l' : List (String × Kind)) :
    Alike c { s with settled := l } c' { s' with settled := l' } :=
  ⟨h.names, h.functions⟩

theorem Alike.insertName (h : Alike c s c' s') (x : String) (k : Kind) :
    Alike c { s with names := s.names.insert x k } c' { s' with names := s'.names.insert x k } := by
  refine ⟨fun y => ?_, h.functions⟩
  have hy := h.names y
  simp only [name?, Table.get?_insert] at hy ⊢
  split
  · rfl
  · exact hy

theorem Alike.insertFunction (h : Alike c s c' s') (f : String) (k : Kind) :
    Alike c { s with functions := s.functions.insert f k }
      c' { s' with functions := s'.functions.insert f k } := by
  refine ⟨h.names, fun g => ?_⟩
  have hg := h.functions g
  simp only [function?, Table.get?_insert] at hg ⊢
  split
  · rfl
  · exact hg

theorem Alike.declare (h : Alike c s c' s') (x : String) (k : Kind) :
    Alike c (declare s x k) c' (declare s' x k) := by
  unfold Prediction.declare
  split
  · exact h
  · exact h.insertName x k

theorem Alike.bindParams (h : Alike c s c' s') (params : List String) :
    Alike c { s with names := params.foldl (fun scope param => scope.insert param .float) s.names }
      c' { s' with
        names := params.foldl (fun scope param => scope.insert param .float) s'.names } := by
  induction params generalizing s s' with
  | nil => exact h
  | cons param params ih => exact ih (h.insertName param .float)

/-- Alike states give the same kind and stay alike. -/
def Respects (p : Kind × State) (c : Context σ) (p' : Kind × State) (c' : Context τ) : Prop :=
  p.1 = p'.1 ∧ Alike c p.2 c' p'.2

theorem settle_alike {body body' : State → Kind × State} {name : String}
    (hbody : ∀ {s s'}, Alike c s c' s' → Respects (body s) c (body' s') c')
    (h : Alike c s c' s') (n : Nat) (kind : Kind) (l l' : List (String × Kind)) :
    (settle body name s.names s.functions n kind l).1 =
      (settle body' name s'.names s'.functions n kind l').1 := by
  induction n generalizing kind l l' with
  | zero => rfl
  | succ n ih =>
    have hstep := hbody ((h.insertFunction name kind).settled l l')
    simp only [settle]
    rw [hstep.1]
    split
    · rfl
    · exact ih _ _ _

theorem returnKind_alike {body body' : State → Kind × State} (name : String) (params : List String)
    (hbody : ∀ {s s'}, Alike c s c' s' → Respects (body s) c (body' s') c')
    (h : Alike c s c' s') (l l' : List (String × Kind)) :
    (returnKind body name params s.names s.functions l).1 =
      (returnKind body' name params s'.names s'.functions l').1 :=
  settle_alike hbody (h.bindParams params) rounds .float l l'

theorem predictAll_alike {nodes : List Node}
    (hn : ∀ node ∈ nodes, ∀ s s', Alike c s c' s' →
      Respects (predict c node s) c (predict c' node s') c')
    (h : Alike c s c' s') (last : Kind) :
    Respects (predictAll c nodes last s) c (predictAll c' nodes last s') c' := by
  induction nodes generalizing s s' last with
  | nil => exact ⟨rfl, h⟩
  | cons node rest ih =>
    have hnode := hn node List.mem_cons_self s s' h
    simp only [predictAll]
    rw [hnode.1]
    exact ih (fun n hm => hn n (List.mem_cons_of_mem _ hm)) hnode.2 _

/-- Where the same is known, the same is predicted. -/
theorem predict_alike (node : Node) (h : Alike c s c' s') :
    Respects (predict c node s) c (predict c' node s') c' := by
  induction node using Node.induction generalizing s s' with
  | h node ih =>
  cases node with
  | sequence statements =>
    simp only [predict]
    exact predictAll_alike (fun n hn s s' hs => ih n hn hs) h .none
  | number n => exact ⟨rfl, h⟩
  | float x => exact ⟨rfl, h⟩
  | string t => exact ⟨rfl, h⟩
  | boolean b => exact ⟨rfl, h⟩
  | identifier x =>
    refine ⟨?_, h⟩
    simp only [predict, nameKind_eq, h.names]
  | binary left op right =>
    have h1 := ih left (by simp [Node.children]) h
    have h2 := ih right (by simp [Node.children]) h1.2
    simp only [predict]
    exact ⟨by rw [h1.1, h2.1], h2.2⟩
  | comparison left op right =>
    have h1 := ih left (by simp [Node.children]) h
    have h2 := ih right (by simp [Node.children]) h1.2
    simp only [predict]
    exact ⟨rfl, h2.2⟩
  | assign x e =>
    have h1 := ih e (by simp [Node.children]) h
    simp only [predict]
    exact ⟨h1.1, h1.1 ▸ h1.2.declare x _⟩
  | increment x => exact ⟨rfl, h⟩
  | decrement x => exact ⟨rfl, h⟩
  | branch condition thenPart elsePart =>
    have h1 := ih condition (by simp [Node.children]) h
    have h2 := ih thenPart (by simp [Node.children]) h1.2
    have h3 := ih elsePart (by simp [Node.children]) h2.2
    simp only [predict]
    exact ⟨by rw [h2.1, h3.1], h3.2⟩
  | loop start condition step body =>
    have h1 := ih start (by simp [Node.children]) h
    have h2 := ih condition (by simp [Node.children]) h1.2
    have h3 := ih body (by simp [Node.children]) h2.2
    have h4 := ih step (by simp [Node.children]) h3.2
    simp only [predict]
    exact ⟨h3.1, h4.2⟩
  | print e =>
    simp only [predict]
    exact ih e (by simp [Node.children]) h
  | random low high => exact ⟨rfl, h⟩
  | define name params body =>
    have hkind := returnKind_alike name params
      (fun {s s'} hs => ih body (by simp [Node.children]) hs) h s.settled s'.settled
    simp only [predict]
    refine ⟨rfl, ?_⟩
    rw [hkind]
    exact (h.insertFunction name _).settled _ _
  | call name args =>
    have hargs : Respects (predictAll c args .none s) c (predictAll c' args .none s') c' :=
      predictAll_alike (fun n hn s s' hs => ih n hn hs) h .none
    simp only [predict]
    refine ⟨?_, hargs.2⟩
    dsimp only
    rw [functionKind_eq, functionKind_eq, hargs.2.functions]
  | array elements => exact ⟨rfl, h⟩
  | missing => exact ⟨rfl, h⟩
  | bare => exact ⟨rfl, h⟩

/-! ## Expressions -/

theorem predictAll_expressions {nodes : List Node}
    (h : ∀ node ∈ nodes, ∀ p, (predict c node p).2 = p) (last : Kind) (p : State) :
    (predictAll c nodes last p).2 = p := by
  induction nodes generalizing last with
  | nil => rfl
  | cons node rest ih =>
    simp only [predictAll, h node List.mem_cons_self p]
    exact ih (fun n hn => h n (List.mem_cons_of_mem _ hn)) _

/-- An expression binds nothing. -/
theorem predict_expression {node : Node} (h : node.isExpression = true) (p : State) :
    (predict c node p).2 = p := by
  induction node using Node.induction generalizing p with
  | h node ih =>
  have part (child : Node) (hc : child ∈ node.children) (p : State) :
      (predict c child p).2 = p :=
    ih child hc (Node.isExpression_child h hc) p
  have hform := ((Node.isExpression_iff node).mp h).1
  cases node with
  | sequence | assign | branch | loop | define => simp [Node.isStatementForm] at hform
  | binary left op right | comparison left op right =>
    simp only [predict, part left (by simp [Node.children]), part right (by simp [Node.children])]
  | print e =>
    simp only [predict]
    exact part e (by simp [Node.children]) p
  | call name args =>
    simp only [predict]
    exact predictAll_expressions part .none p
  | _ => rfl

end DualEngine.Prediction
