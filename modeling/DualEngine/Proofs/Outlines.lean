import DualEngine.Node.Outline
import DualEngine.Proofs.Quotation
import DualEngine.Proofs.RoundTrip

/-! # Outlines are unambiguous

The lines of a part stand deeper than the line before them, so an outline shows where every part
ends. The first line of a tree and its parts make up the tree, and so does its outline.
-/
namespace DualEngine.Node
open Text

variable {floats : Set Float} {node t u : Node} {nodes : List Node} {label : String}
  {part : Option String × Node} {k : Nat} {r s : List String}

/-! ## Trees of the parser's shape -/

/-- Operators are told by their symbols, lists have no gaps, and floats come from a set. -/
def IsRegular (floats : Set Float) : Node → Prop
  | .float x => x ∈ floats
  | .binary _ op _ => ArithOp.ofSymbol op.symbol = op
  | .comparison _ op _ => CompareOp.ofSymbol op.symbol = op
  | .sequence nodes | .call _ nodes | .array nodes => .missing ∉ nodes
  | .bare => False
  | _ => True

/-- A tree of the shape that the parser gives, whatever its names and texts are. -/
def WellShaped (floats : Set Float) (node : Node) : Prop := ∀ t ∈ node.subtrees, IsRegular floats t

theorem WellShaped.regular (h : WellShaped floats node) : IsRegular floats node :=
  h node (mem_subtrees_self node)

theorem WellShaped.child {child : Node} (h : WellShaped floats node) (hc : child ∈ node.children) :
    WellShaped floats child :=
  fun t ht => h t (subtrees_subset hc ht)

theorem missing_not_mem (h : ∀ node ∈ nodes, Statement node) : .missing ∉ nodes := by
  intro hmem
  cases h _ hmem with
  | simple h =>
    cases h with
    | expression h => cases h

theorem Statement.isRegular (h : Statement node) (hfloats : ∀ x, node = .float x → x ∈ floats) :
    IsRegular floats node := by
  cases h with
  | simple h =>
    cases h with
    | expression h =>
      cases h with
      | float => exact hfloats _ rfl
      | binary hop | comparison hop =>
        simp only [List.mem_cons, List.not_mem_nil, or_false] at hop
        rcases hop with rfl | rfl | rfl | rfl | rfl | rfl <;> rfl
      | call _ hnodes | array hnodes =>
        exact missing_not_mem fun node hnode => .simple (.expression (hnodes node hnode))
      | _ => trivial
    | assign => trivial
  | _ => trivial

theorem IsPart.isRegular (h : IsPart node) (hfloats : ∀ x, node = .float x → x ∈ floats) :
    IsRegular floats node := by
  rcases h with rfl | h
  · trivial
  cases node with
  | sequence nodes => exact missing_not_mem h
  | _ => exact (h _ List.mem_cons_self).isRegular hfloats

/-- What the parser reads has its shape. -/
theorem wellShaped_of_parse {source : String} (h : parse source = .ok node)
    (hfloats : ∀ x, .float x ∈ node.subtrees → x ∈ floats) : WellShaped floats node :=
  fun _ ht => ((canonical_of_parse h).isPart.of_mem_subtrees ht).isRegular
    fun x hx => hfloats x (hx ▸ ht)

/-! ## Outlines as first lines and parts -/

/-- The items of a list, labelled with their places. -/
def numbered (label : String) (i : Nat) : List Node → List (Option String × Node)
  | [] => []
  | node :: rest =>
    (some (label ++ "[" ++ toString i ++ "]"), node) :: numbered label (i + 1) rest

/-- The parts of a tree with their labels; statements have none. -/
def parts : Node → List (Option String × Node)
  | .sequence statements => statements.map (none, ·)
  | .binary left _ right | .comparison left _ right => [(some "left", left), (some "right", right)]
  | .assign _ expression | .print expression => [(some "expression", expression)]
  | .branch condition thenPart elsePart =>
    [(some "condition", condition), (some "then_part", thenPart), (some "else_part", elsePart)]
  | .loop start condition step body =>
    [(some "initialization", start), (some "condition", condition), (some "step", step),
      (some "body", body)]
  | .random low high => [(some "min_value", low), (some "max_value", high)]
  | .define _ _ body => [(some "body", body)]
  | .call _ args => numbered "args" 0 args
  | .array elements => numbered "elements" 0 elements
  | _ => []

/-- The parts that are there. -/
def shown (node : Node) : List (Option String × Node) := node.parts.filter (!·.2.isMissing)

def partLines (k : Nat) (part : Option String × Node) : List String :=
  match part.1 with
  | none => part.2.outlineLines (k + 1)
  | some label => (pad (k + 1) ++ label ++ ":") :: part.2.outlineLines (k + 2)

/-- The first line of an outline, without its indentation. -/
def headText (node : Node) : String := (node.outlineLines 0).headD ""

theorem map_numbered (label : String) (i : Nat) (nodes : List Node) :
    (numbered label i nodes).map Prod.snd = nodes := by
  induction nodes generalizing i with
  | nil => rfl
  | cons node rest ih => simp [numbered, ih]

theorem map_parts (node : Node) : node.parts.map Prod.snd = node.children := by
  cases node with
  | sequence => simp [parts, children, Function.comp_def]
  | call | array => exact map_numbered _ _ _
  | _ => rfl

theorem mem_children (h : part ∈ node.shown) : part.2 ∈ node.children :=
  map_parts node ▸ List.mem_map_of_mem (List.mem_of_mem_filter h)

theorem itemLines_eq (k : Nat) (label : String) (i : Nat) (nodes : List Node) :
    itemLines k label i nodes = (numbered label i nodes).flatMap (partLines k) := by
  induction nodes generalizing i with
  | nil => rfl
  | cons node rest ih => simp [itemLines, numbered, partLines, ih, String.append_assoc]

theorem statementLines_eq (k : Nat) (nodes : List Node) :
    statementLines (k + 1) nodes = (nodes.map (none, ·)).flatMap (partLines k) := by
  induction nodes with
  | nil => rfl
  | cons node rest ih => simpa [statementLines, partLines] using ih

/-- The items of a list are all there. -/
theorem shown_eq (h : .missing ∉ node.children) : node.shown = node.parts := by
  refine List.filter_eq_self.mpr fun part hpart => ?_
  have hchild : part.2 ∈ node.children := map_parts node ▸ List.mem_map_of_mem hpart
  simpa using mt eq_missing fun heq => h (heq ▸ hchild)

theorem flatMap_shown (node : Node) (k : Nat) : node.shown.flatMap (partLines k) =
    node.parts.flatMap fun part => if part.2.isMissing then [] else partLines k part := by
  unfold shown
  induction node.parts with
  | nil => rfl
  | cons part rest ih => cases hpart : part.2.isMissing <;> simp [hpart, ih]

theorem isChildren_cons (h : .missing ∉ node :: nodes) : isChildren (node :: nodes) = true := by
  cases node with
  | missing => exact absurd List.mem_cons_self h
  | _ => rfl

/-- The outline of a tree: a line of its own, then its parts. -/
theorem IsRegular.outlineLines_eq (h : IsRegular floats node) (k : Nat) :
    node.outlineLines k = (pad k ++ node.headText) :: node.shown.flatMap (partLines k) := by
  have hpad : pad 0 = "" := rfl
  cases node with
  | sequence statements =>
    rw [shown_eq (by exact h)]
    simp [headText, outlineLines, parts, headLine, statementLines_eq, hpad]
  | call name args | array args =>
    rw [shown_eq (by exact h)]
    cases args with
    | nil => simp [headText, outlineLines, isChildren, parts, numbered, headLine, hpad]
    | cons first rest =>
      simp [headText, outlineLines, isChildren_cons h, parts, headLine, itemLines_eq, hpad]
  | _ =>
    rw [flatMap_shown]
    simp [headText, outlineLines, parts, headLine, childLines, partLines, hpad]

theorem pad_add (j k : Nat) : pad (j + k) = pad k ++ pad j := by
  rw [pad, pad, pad, ← String.ofList_append, List.replicate_append_replicate]
  congr 2
  omega

/-- Deeper in a tree, all lines are moved to the right by the same amount. -/
theorem WellShaped.outlineLines_add (h : WellShaped floats node) (j k : Nat) :
    node.outlineLines (j + k) = (node.outlineLines j).map (pad k ++ ·) := by
  induction node using Node.induction generalizing j with
  | h node ih =>
    have hparts : node.shown.flatMap (partLines (j + k)) =
        node.shown.flatMap fun part => (partLines j part).map (pad k ++ ·) := by
      refine List.flatMap_congr fun part hpart => ?_
      have hchild := ih part.2 (mem_children hpart) (h.child (mem_children hpart))
      obtain ⟨label, child⟩ := part
      cases label with
      | none => simp [partLines, Nat.add_right_comm j k, hchild]
      | some label =>
        simp [partLines, Nat.add_right_comm j k, hchild, pad_add, String.append_assoc]
    rw [h.regular.outlineLines_eq, h.regular.outlineLines_eq, hparts]
    simp [pad_add, String.append_assoc, List.map_flatMap]

/-- No character is a blank or a line feed. -/
def IsSolid (text : String) : Prop := ∀ c ∈ text.toList, c ≠ ' ' ∧ c ≠ '\n'

theorem isSolid_place (hlabel : IsSolid label) (i : Nat) :
    IsSolid (label ++ "[" ++ toString i ++ "]") := by
  intro c hc
  simp only [String.toList_append, Nat.toString_eq_repr, Nat.toList_repr, List.mem_append] at hc
  rcases hc with ((hc | hc) | hc) | hc
  · exact hlabel c hc
  · simp_all
  · have hdigit := Nat.isDigit_of_mem_toDigits (by decide) (by decide) hc
    constructor <;> rintro rfl <;> cases hdigit
  · simp_all

/-- The first word of an outline. -/
def word : Node → String
  | .missing => "<none>"
  | node => node.shape

/-- Only the parts of sequences have no labels. -/
theorem label_cases (hshown : part ∈ node.shown) :
    part.1 = none ∧ node.word = "Sequence" ∨
      ∃ label, part.1 = some label ∧ IsSolid label ∧ node.word ≠ "Sequence" := by
  have h := List.mem_of_mem_filter hshown
  have hnumbered {label : String} (hlabel : IsSolid label) (nodes : List Node) (i : Nat)
      (h : part ∈ numbered label i nodes) : ∃ label, part.1 = some label ∧ IsSolid label := by
    induction nodes generalizing i with
    | nil => cases h
    | cons node rest ih =>
      rcases List.mem_cons.mp h with rfl | h
      · exact ⟨_, rfl, isSolid_place hlabel i⟩
      · exact ih _ h
  cases node with
  | sequence statements =>
    obtain ⟨node, hnode, rfl⟩ := List.mem_map.mp h
    exact .inl ⟨rfl, rfl⟩
  | call name nodes | array nodes =>
    obtain ⟨label, hlabel, hsolid⟩ := hnumbered (by simp [IsSolid]) _ _ h
    exact .inr ⟨label, hlabel, hsolid, by simp [word, shape]⟩
  | binary | comparison | assign | branch | loop | print | random | define =>
    simp only [parts, List.mem_cons, List.not_mem_nil, or_false] at h
    rcases h with rfl | rfl | rfl | rfl <;> simp [IsSolid, word, shape]
  | _ => cases h

/-! ## Blocks of lines -/

/-- How far the first line is indented. -/
def margin (lines : List String) : Nat := ((lines.headD "").toList.takeWhile (· == ' ')).length

theorem margin_append (h : margin r ≠ 0) : margin (r ++ s) = margin r := by
  cases r with
  | nil => exact absurd rfl h
  | cons => rfl

theorem margin_pad (k : Nat) {text : String} (h : ∀ c ∈ text.toList.head?, c ≠ ' ') :
    margin ((pad k ++ text) :: r) = 2 * k := by
  have hspaces : ∀ c ∈ List.replicate (2 * k) ' ', (c == ' ') = true := by simp
  have htext : text.toList.takeWhile (· == ' ') = [] := by
    cases hlist : text.toList with
    | nil => rfl
    | cons c cs => simpa [hlist] using h
  simp [margin, pad, List.takeWhile_append_of_pos hspaces, htext]

/-- Blocks can be told apart if each can be told from what may follow it. -/
theorem flatMap_append_inj {α : Type} {f : α → List String} {xs ys : List α}
    (hx : ∀ x ∈ xs, margin (f x) = 2 * (k + 1)) (hy : ∀ y ∈ ys, margin (f y) = 2 * (k + 1))
    (hinj : ∀ x ∈ xs, ∀ y ∈ ys, ∀ r s, margin r ≤ 2 * (k + 1) → margin s ≤ 2 * (k + 1) →
      f x ++ r = f y ++ s → x = y ∧ r = s)
    (hr : margin r ≤ 2 * k) (hs : margin s ≤ 2 * k) (h : xs.flatMap f ++ r = ys.flatMap f ++ s) :
    xs = ys ∧ r = s := by
  have hclash {x : α} {t u : List String} (hstart : margin (f x) = 2 * (k + 1))
      (ht : margin t ≤ 2 * k) : f x ++ u ≠ t := by
    rintro rfl
    rw [margin_append (by omega)] at ht
    omega
  have hnext {zs : List α} {t : List String} (hz : ∀ z ∈ zs, margin (f z) = 2 * (k + 1))
      (ht : margin t ≤ 2 * k) : margin (zs.flatMap f ++ t) ≤ 2 * (k + 1) := by
    cases zs with
    | nil => exact ht.trans (by omega)
    | cons z zs =>
      have hstart := hz z List.mem_cons_self
      rw [List.flatMap_cons, List.append_assoc, margin_append (by omega), hstart]
  induction xs generalizing ys with
  | nil =>
    cases ys with
    | nil => exact ⟨rfl, h⟩
    | cons y ys =>
      rw [List.flatMap_cons, List.append_assoc] at h
      exact absurd h.symm (hclash (hy y List.mem_cons_self) hr)
  | cons x xs ih =>
    cases ys with
    | nil =>
      rw [List.flatMap_cons, List.append_assoc] at h
      exact absurd h (hclash (hx x List.mem_cons_self) hs)
    | cons y ys =>
      simp only [List.flatMap_cons, List.append_assoc] at h
      rw [List.forall_mem_cons] at hx hy
      obtain ⟨rfl, hrest⟩ := hinj x List.mem_cons_self y List.mem_cons_self _ _ (hnext hx.2 hr)
        (hnext hy.2 hs) h
      obtain ⟨rfl, rfl⟩ := ih hx.2 hy.2 (fun a ha b hb =>
        hinj a (List.mem_cons_of_mem _ ha) b (List.mem_cons_of_mem _ hb)) hrest
      exact ⟨rfl, rfl⟩

/-! ## First lines -/

theorem newline_not_mem_intercalate {mark : String} {texts : List String}
    (hmark : '\n' ∉ mark.toList) (h : ∀ text ∈ texts, '\n' ∉ text.toList) :
    '\n' ∉ (mark.intercalate texts).toList := by
  induction texts with
  | nil => simp
  | cons text rest ih =>
    rw [List.forall_mem_cons] at h
    cases rest with
    | nil => simpa using h.1
    | cons next rest => simp [-String.toList_intercalate, h.1, hmark, ih h.2]

theorem newline_not_mem_repr (n : Int) : '\n' ∉ n.repr.toList := by
  have hdigits (m : Nat) : '\n' ∉ m.repr.toList := fun hmem => by
    rw [Nat.toList_repr] at hmem
    cases Nat.isDigit_of_mem_toDigits (by decide) (by decide) hmem
  cases n with
  | ofNat m => exact hdigits m
  | negSucc m => simpa [Int.repr] using hdigits (m + 1)

theorem newline_not_mem_tuple (names : List String) :
    '\n' ∉ (tuple (names.map quoted)).toList := by
  have hnames : ∀ text ∈ names.map quoted, '\n' ∉ text.toList := by
    simp [newline_not_mem_quoted]
  unfold tuple
  split <;> simp_all [-String.toList_intercalate, newline_not_mem_intercalate]

/-- A first line is made of words and fields, and the fields are on one line if the floats are. -/
theorem IsRegular.headText_eq (h : IsRegular floats node) :
    ∃ fields, node.headText = " ".intercalate (node.word :: fields) ∧
      ((∀ x ∈ floats, '\n' ∉ (Decimal.shortest x).toList) →
        ∀ field ∈ fields, '\n' ∉ field.toList) := by
  have hhead (shape : String) (fields : List String) :
      headLine 0 shape fields = " ".intercalate (shape :: fields) := String.empty_append
  have habsent (label : String) (part : Node) :
      (∀ field ∈ absentField label part, '\n' ∉ field.toList) ↔
        (part.isMissing = true → '\n' ∉ label.toList) := by
    unfold absentField
    split <;> simp [*]
  cases node with
  | missing => exact ⟨[], by simp [headText, outlineLines, word, pad], by simp⟩
  | bare => cases h
  | sequence => exact ⟨[], hhead _ _, by simp⟩
  | float x =>
    refine ⟨_, hhead _ _, fun hfloats => ?_⟩
    simp [hfloats x h]
  | boolean b =>
    refine ⟨_, hhead _ _, fun _ => ?_⟩
    cases b <;> simp [truthWord]
  | call name nodes | array nodes =>
    cases nodes with
    | nil => exact ⟨_, hhead _ _, by simp [inlines, tuple, newline_not_mem_quoted]⟩
    | cons first rest =>
      simp only [headText, outlineLines, isChildren_cons h, if_true]
      exact ⟨_, hhead _ _, by simp [newline_not_mem_quoted]⟩
  | _ =>
    refine ⟨_, hhead _ _, fun _ => ?_⟩
    simp only [List.forall_mem_append, List.forall_mem_cons, habsent]
    simp [newline_not_mem_quoted, newline_not_mem_repr, newline_not_mem_tuple]

theorem isSolid_word (node : Node) : IsSolid node.word ∧ node.word ≠ "" := by
  cases node <;> simp [IsSolid, word, shape]

theorem IsRegular.word_eq (ht : IsRegular floats t) (hu : IsRegular floats u)
    (h : t.headText = u.headText) : t.word = u.word := by
  have hword {node : Node} (hnode : IsRegular floats node) :
      node.headText.toList.takeWhile (· != ' ') = node.word.toList := by
    obtain ⟨fields, hfields, -⟩ := hnode.headText_eq
    have hsolid : ∀ c ∈ node.word.toList, (c != ' ') = true := fun c hc => by
      simpa using ((isSolid_word node).1 c hc).1
    rw [hfields]
    cases fields with
    | nil => simpa using hsolid
    | cons field fields => simp [List.takeWhile_append_of_pos hsolid]
  exact String.toList_inj.mp (by rw [← hword ht, ← hword hu, h])

theorem IsRegular.margin_eq (h : IsRegular floats node) (k : Nat) :
    margin (node.outlineLines k) = 2 * k := by
  obtain ⟨fields, hfields, -⟩ := h.headText_eq
  obtain ⟨hsolid, hne⟩ := isSolid_word node
  rw [h.outlineLines_eq]
  refine margin_pad k fun c hc => (hsolid c ?_).1
  obtain ⟨d, ds, hlist⟩ := List.exists_cons_of_ne_nil (mt String.toList_eq_nil_iff.mp hne)
  rw [hfields] at hc
  cases fields <;> simp_all

theorem WellShaped.margin_part (h : WellShaped floats node) (hpart : part ∈ node.shown) (k : Nat) :
    margin (partLines k part) = 2 * (k + 1) := by
  have hchild := (h.child (mem_children hpart)).regular
  obtain ⟨hlabel, -⟩ | ⟨label, hlabel, hsolid, -⟩ := label_cases hpart
  · rw [partLines, hlabel]
    exact hchild.margin_eq (k + 1)
  · rw [partLines, hlabel]
    dsimp only
    rw [String.append_assoc]
    refine margin_pad (k + 1) fun c hc => ?_
    rcases List.mem_append.mp (String.toList_append ▸ List.mem_of_mem_head? hc) with hc | hc
    · exact (hsolid c hc).1
    · rw [show c = ':' by simpa using hc]
      decide

/-! ## What the first line and the parts say -/

/-- Parts with distinct labels are told by those that are there. -/
theorem parts_eq {xs ys : List (Option String × Node)} (hlabels : xs.map Prod.fst = ys.map Prod.fst)
    (hdistinct : (xs.map Prod.fst).Nodup)
    (h : xs.filter (!·.2.isMissing) = ys.filter (!·.2.isMissing)) : xs = ys := by
  induction xs generalizing ys with
  | nil => exact (List.map_eq_nil_iff.mp hlabels.symm).symm
  | cons x xs ih =>
    cases ys with
    | nil => cases hlabels
    | cons y ys =>
      obtain ⟨label, p⟩ := x
      obtain ⟨label', q⟩ := y
      simp only [List.map_cons, List.cons.injEq, List.nodup_cons] at hlabels hdistinct
      obtain ⟨rfl, hlabels⟩ := hlabels
      -- a part that is there on one side only would leave its label to a later part
      have hlater {zs : List (Option String × Node)} (hzs : zs.map Prod.fst = xs.map Prod.fst)
          {z : Node} : (label, z) ∉ zs.filter (!·.2.isMissing) := fun hmem =>
        hdistinct.1 (hzs ▸ List.mem_map_of_mem (List.mem_of_mem_filter hmem))
      cases hp : p.isMissing <;> cases hq : q.isMissing <;> simp only [List.filter_cons, hp, hq,
        Bool.not_false, Bool.not_true, if_true, Bool.false_eq_true, if_false, List.cons.injEq] at h
      · obtain ⟨hpq, hrest⟩ := h
        rw [hpq, ih hlabels hdistinct.2 hrest]
      · exact absurd (h ▸ List.mem_cons_self) (hlater hlabels.symm)
      · exact absurd (h ▸ List.mem_cons_self) (hlater rfl)
      · rw [eq_missing hp, eq_missing hq, ih hlabels hdistinct.2 h]

theorem children_eq (h : t.shown = u.shown) (hlabels : t.parts.map Prod.fst = u.parts.map Prod.fst)
    (hdistinct : (t.parts.map Prod.fst).Nodup) : t.children = u.children := by
  rw [← map_parts, ← map_parts, parts_eq hlabels hdistinct h]

theorem tuple_eq (texts : List String) :
    ∃ closing ∈ [")", ",)"], tuple texts = "(" ++ (", ".intercalate texts ++ closing) := by
  unfold tuple
  split
  · exact ⟨")", by simp, rfl⟩
  · exact ⟨",)", by simp, by simp [String.append_assoc]⟩
  · exact ⟨")", by simp, String.append_assoc⟩

theorem names_inj {ps qs : List String} {c d : String} (hc : c ∈ [")", ",)"]) (hd : d ∈ [")", ",)"])
    (h : ", ".intercalate (ps.map quoted) ++ c = ", ".intercalate (qs.map quoted) ++ d) :
    ps = qs := by
  have hclosing {c : String} (hc : c ∈ [")", ",)"]) (q r : String) :
      quoted q ++ r ≠ c ∧ ", " ++ r ≠ c := by
    simp only [List.mem_cons, List.not_mem_nil, or_false] at hc
    refine ⟨fun h => ?_, fun h => ?_⟩ <;> rcases isQuote_quoteFor q.toList with hq | hq <;>
      rcases hc with rfl | rfl <;> simpa [quoted, hq] using congrArg String.toList h
  have hcons (p : String) (ps : List String) (c : String) :
      ", ".intercalate ((p :: ps).map quoted) ++ c = quoted p ++
        if ps = [] then c else ", " ++ (", ".intercalate (ps.map quoted) ++ c) := by
    cases ps <;> simp [String.append_assoc]
  induction ps generalizing qs with
  | nil =>
    cases qs with
    | nil => rfl
    | cons q qs =>
      rw [hcons] at h
      exact absurd (by simpa using h.symm) (hclosing hc q _).1
  | cons p ps ih =>
    cases qs with
    | nil =>
      rw [hcons] at h
      exact absurd (by simpa using h) (hclosing hd p _).1
    | cons q qs =>
      rw [hcons, hcons] at h
      obtain ⟨rfl, hrest⟩ := quoted_append_inj h
      split at hrest <;> split at hrest
      · simp [*]
      · exact absurd hrest.symm (hclosing hc p _).2
      · exact absurd hrest (hclosing hd p _).2
      · rw [ih ((String.append_right_inj _).mp hrest)]

theorem tuple_inj {ps qs : List String}
    (h : tuple (ps.map quoted) = tuple (qs.map quoted)) : ps = qs := by
  obtain ⟨c, hc, hps⟩ := tuple_eq (ps.map quoted)
  obtain ⟨d, hd, hqs⟩ := tuple_eq (qs.map quoted)
  rw [hps, hqs, String.append_right_inj] at h
  exact names_inj hc hd h

/-- The first line and the parts make up the tree. -/
theorem IsRegular.eq_of_shown (hfloats : Set.InjOn Decimal.shortest floats)
    (ht : IsRegular floats t) (hu : IsRegular floats u) (hhead : t.headText = u.headText)
    (hshown : t.shown = u.shown) : t = u := by
  have hword := ht.word_eq hu hhead
  have hlist (ht : .missing ∉ t.children) (hu : .missing ∉ u.children) :
      t.children = u.children := by
    rw [← map_parts, ← map_parts, ← shown_eq ht, ← shown_eq hu, hshown]
  cases t <;> cases u <;> try (simp [word, shape] at hword; done)
  case sequence.sequence => exact congrArg sequence (hlist ht hu)
  case array.array => exact congrArg array (hlist ht hu)
  case call.call f args g args' =>
    obtain rfl : args = args' := hlist ht hu
    simp only [headText, outlineLines, headLine] at hhead
    split at hhead <;> simpa [quoted_inj] using hhead
  all_goals have hchildren := children_eq hshown rfl (by simp [parts])
  all_goals simp only [children, List.cons.injEq, and_true] at hchildren
  case float.float x y =>
    rw [hfloats ht hu (by simpa [headText, outlineLines, headLine] using hhead)]
  case number.number | string.string | identifier.identifier | increment.increment |
      decrement.decrement =>
    simpa [headText, outlineLines, headLine, quoted_inj] using hhead
  case boolean.boolean b b' =>
    cases b <;> cases b' <;> simp [headText, outlineLines, headLine, truthWord] at hhead ⊢
  case missing.missing | bare.bare => rfl
  case branch.branch | loop.loop | print.print | random.random => simp [hchildren]
  case assign.assign =>
    subst hchildren
    simp only [headText, outlineLines, headLine, absentField] at hhead
    split at hhead <;> simpa [quoted_inj] using hhead
  case binary.binary | comparison.comparison =>
    obtain ⟨rfl, rfl⟩ := hchildren
    rw [← ht, ← hu]
    congr 2
    simp only [headText, outlineLines, headLine, absentField] at hhead
    split at hhead <;> split at hhead <;> simpa [quoted_inj] using hhead
  case define.define f params body f' params' body' =>
    subst hchildren
    simp only [headText, outlineLines, headLine, absentField] at hhead
    obtain ⟨rfl, hparams⟩ : f = f' ∧
        tuple (params.map quoted) = tuple (params'.map quoted) := by
      split at hhead <;> simp only [List.cons_append, List.nil_append, String.append_assoc,
        List.append_nil, String.intercalate_cons_cons, List.headD_cons, String.append_right_inj,
        String.intercalate_singleton] at hhead <;> simpa using quoted_append_inj hhead
    rw [tuple_inj hparams]

/-- The outline of a tree can be told from shallower lines after it. -/
theorem WellShaped.outlineLines_append_inj (hfloats : Set.InjOn Decimal.shortest floats)
    (ht : WellShaped floats t) (hu : WellShaped floats u) (hr : margin r ≤ 2 * k)
    (hs : margin s ≤ 2 * k) (h : t.outlineLines k ++ r = u.outlineLines k ++ s) : t = u ∧ r = s := by
  induction t using Node.induction generalizing u k r s with
  | h t ih =>
    rw [ht.regular.outlineLines_eq, hu.regular.outlineLines_eq, List.cons_append, List.cons_append,
      List.cons.injEq, String.append_right_inj] at h
    obtain ⟨hhead, hrest⟩ := h
    have hword := ht.regular.word_eq hu.regular hhead
    -- a part is followed by lines that start no deeper than the part
    have hinj : ∀ x ∈ t.shown, ∀ y ∈ u.shown, ∀ r s, margin r ≤ 2 * (k + 1) →
        margin s ≤ 2 * (k + 1) → partLines k x ++ r = partLines k y ++ s → x = y ∧ r = s := by
      rintro ⟨label, p⟩ hx ⟨label', q⟩ hy r s hr hs heq
      have hsame (j : Nat) (hj : k + 1 ≤ j) := ih p (mem_children hx) (k := j)
        (ht.child (mem_children hx)) (hu.child (mem_children hy)) (hr.trans (by omega))
        (hs.trans (by omega))
      obtain ⟨hx, hsequence⟩ | ⟨_, hx, -, hsequence⟩ := label_cases hx <;>
      obtain ⟨hy, hsequence'⟩ | ⟨_, hy, -, hsequence'⟩ := label_cases hy
      · cases hx; cases hy
        obtain ⟨rfl, rfl⟩ := hsame _ le_rfl heq
        exact ⟨rfl, rfl⟩
      · exact absurd (hword ▸ hsequence) hsequence'
      · exact absurd (hword ▸ hsequence') hsequence
      · cases hx; cases hy
        simp only [partLines, List.cons_append, List.cons.injEq, String.append_left_inj,
          String.append_right_inj] at heq
        obtain ⟨rfl, heq⟩ := heq
        obtain ⟨rfl, rfl⟩ := hsame _ (Nat.le_succ _) heq
        exact ⟨rfl, rfl⟩
    obtain ⟨hparts, rfl⟩ := flatMap_append_inj (fun x hx => ht.margin_part hx k)
      (fun y hy => hu.margin_part hy k) hinj hr hs hrest
    exact ⟨ht.regular.eq_of_shown hfloats hu.regular hhead hparts, rfl⟩

/-! ## Whole outlines -/

theorem WellShaped.newline_not_mem (hline : ∀ x ∈ floats, '\n' ∉ (Decimal.shortest x).toList)
    (h : WellShaped floats node) (k : Nat) : ∀ line ∈ node.outlineLines k, '\n' ∉ line.toList := by
  have hpad (k : Nat) : '\n' ∉ (pad k).toList := by simp [pad]
  induction node using Node.induction generalizing k with
  | h node ih =>
    obtain ⟨fields, hhead, hfields⟩ := h.regular.headText_eq
    have hword : '\n' ∉ node.word.toList := fun hmem => ((isSolid_word node).1 _ hmem).2 rfl
    rw [h.regular.outlineLines_eq, List.forall_mem_cons, String.toList_append, hhead]
    refine ⟨?_, fun line hmem => ?_⟩
    · simp only [List.mem_append, hpad, false_or]
      exact newline_not_mem_intercalate (by simp) (List.forall_mem_cons.mpr ⟨hword, hfields hline⟩)
    · obtain ⟨part, hpart, hmem⟩ := List.mem_flatMap.mp hmem
      have hlines := ih part.2 (mem_children hpart) (h.child (mem_children hpart))
      obtain ⟨hlabel, -⟩ | ⟨label, hlabel, hsolid, -⟩ := label_cases hpart <;>
        rw [partLines, hlabel] at hmem
      · exact hlines _ line hmem
      · rcases List.mem_cons.mp hmem with rfl | hmem
        · simpa [hpad] using fun hmem => (hsolid _ hmem).2 rfl
        · exact hlines _ line hmem

theorem areShowable_iff (nodes : List Node) :
    areShowable nodes = true ↔ ∀ node ∈ nodes, node.isShowable = true := by
  induction nodes <;> simp_all [areShowable]

theorem WellShaped.isShowable (h : WellShaped floats node) : node.isShowable = true := by
  induction node using Node.induction with
  | h node ih =>
    have hchildren : ∀ child ∈ node.children, child.isShowable = true :=
      fun child hc => ih child hc (h.child hc)
    have hregular := h.regular
    cases node with
    | bare => cases hregular
    | sequence | call | array =>
      have hall := (areShowable_iff _).mpr hchildren
      simp_all [Node.isShowable, children]
    | _ => simp_all [Node.isShowable, children]

/-- Outlines of trees of the parser's shape are unambiguous, and at a deeper indentation all lines
are moved to the right. Of the texts of floats it is taken that they can be told apart and stand on
one line. -/
theorem outline_unambiguous (hinj : Set.InjOn Decimal.shortest floats)
    (hline : ∀ x ∈ floats, '\n' ∉ (Decimal.shortest x).toList) (ht : WellShaped floats t)
    (hu : WellShaped floats u) :
    (t.outline? 0 = u.outline? 0 → t = u) ∧ ∀ k, t.outline? k = .ok ("\n".intercalate
      (((t.outline 0).toList.splitOn '\n').map fun line => pad k ++ String.ofList line)) := by
  have hsplit {t : Node} (ht : WellShaped floats t) :
      (t.outline 0).toList.splitOn '\n' = (t.outlineLines 0).map String.toList := by
    rw [outline, String.toList_intercalate]
    refine List.splitOn_intercalate '\n' (by simpa using ht.newline_not_mem hline 0) ?_
    simp [ht.regular.outlineLines_eq]
  refine ⟨fun h => ?_, fun k => ?_⟩
  · rw [outline?, outline?, if_pos ht.isShowable, if_pos hu.isShowable] at h
    have hlines : t.outlineLines 0 = u.outlineLines 0 := by
      apply List.map_injective_iff.mpr fun _ _ => String.toList_inj.mp
      rw [← hsplit ht, ← hsplit hu, Except.ok.inj h]
    exact (ht.outlineLines_append_inj hinj hu le_rfl le_rfl (congrArg (· ++ []) hlines)).1
  · have hshift := ht.outlineLines_add 0 k
    rw [outline?, if_pos ht.isShowable, outline, hsplit ht, ← Nat.zero_add k, hshift, Nat.zero_add]
    simp [Function.comp_def]

/-- A branch without an `else`, a text with both quotes and a line feed, and nested lists. -/
def nested : Node := .sequence [
  .branch (.comparison (.identifier "x") .lt (.float 1.5)) (.print (.string "it's\n\"")) .missing,
  .define "f" ["a", "b"] (.call "g" [.float 0.5, .array []])]

theorem nested_outline : nested.outline? 0 ≠ (sequence [nested]).outline? 0 ∧
    ∀ k, ∃ text, nested.outline? k = .ok text := by
  have hone : Decimal.shortest 1.5 = "1.5" := by decide +kernel
  have hhalf : Decimal.shortest 0.5 = "0.5" := by decide +kernel
  have hshaped : WellShaped {0.5, 1.5} nested ∧ WellShaped {0.5, 1.5} (sequence [nested]) := by
    simp [WellShaped, nested, subtrees, subtreesOf, IsRegular, CompareOp.ofSymbol, CompareOp.symbol]
  have h := outline_unambiguous (by simp [Set.InjOn, hone, hhalf]) (by simp [hone, hhalf])
    hshaped.1 hshaped.2
  exact ⟨fun heq => absurd (h.1 heq) (by simp [nested]), fun k => ⟨_, h.2 k⟩⟩

end DualEngine.Node
