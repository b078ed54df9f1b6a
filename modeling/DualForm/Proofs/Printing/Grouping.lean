import DualForm.Proofs.Printing.Reader

/-!
# Printed trees keep their grouping

A tree is printed with parentheses around the parts that would otherwise be read in another way. The proof
follows the reader over the printed tree.

* `Reader.Fits r K` — a part of rank `r` does not hold together too loosely for the top frame on `K`.
* `Reader.Yields K m ts r s` — from the frames `K`, the texts `ts` are read as the shape `s`, up to frames that
  hold together as tightly as `r`. These are finished by the mark that comes next.
* `Reader.Legible t` — the printed tree is read as its shape from all frames it fits. There is one lemma for each
  kind of node.

Principal results: `Reader.legible` — printed trees are read as their shapes; `Tree.shape_eq_of_text` — trees
that are printed alike have the same shape.
-/

namespace DualForm

namespace Reader

variable {K : List Frame} {i : Item} {st st' : State} {l : Lexeme} {s : Shape} {ts us : List String}
  {k r r' : Nat} {m : Mode}

/-! ## Frames -/

/-- A part of this rank does not hold together too loosely for the top frame. -/
def Fits (r : Nat) (K : List Frame) : Prop := ∀ f ∈ K.head?, r ≤ f.level

theorem Frame.level_pos (f : Frame) : 1 ≤ f.level := by cases f <;> simp [level]

theorem fits_tight (K : List Frame) : Fits 1 K := fun f _ => f.level_pos

theorem Fits.mono (h : Fits r K) (hr : r' ≤ r) : Fits r' K := fun f hf => Nat.le_trans hr (h f hf)

theorem collapse_cons {f : Frame} (h : f.level ≤ k) : collapse k (f :: K) s = collapse k K (f.plug s) :=
  if_pos h

/-- A shape in a frame that waits for something looser. -/
theorem collapse_fits (h : Fits (k + 1) K) : collapse k K s = (K, s) := by
  cases K with
  | nil => rfl
  | cons f K => exact if_neg (Nat.not_le.2 (h f rfl))

/-! ## Trees that are read -/

/-- The texts are read as the shape, up to frames that hold together as tightly as `r`. -/
def Yields (K : List Frame) (m : Mode) (ts : List String) (r : Nat) (s : Shape) : Prop :=
  ∃ K' s', Reads ⟨K, m⟩ ts ⟨K', .done (.shape s')⟩ ∧ ∀ k, r ≤ k → collapse k K' s' = collapse k K s

/-- After the sign of a unary operation, only what holds together is read. -/
def Open (m : Mode) (r : Nat) : Prop := m = .ready ∨ (m = .tight ∧ r = 0)

theorem open_ready (r : Nat) : Open .ready r := .inl rfl

namespace Yields

theorem of_reads (h : Reads ⟨K, m⟩ ts ⟨K, .done (.shape s)⟩) : Yields K m ts r s := ⟨K, s, h, fun _ _ => rfl⟩

theorem mono (h : Yields K m ts r s) (hr : r ≤ r') : Yields K m ts r' s := by
  obtain ⟨K', s', hreads, hcollapse⟩ := h
  exact ⟨K', s', hreads, fun k hk => hcollapse k (Nat.le_trans hr hk)⟩

/-- What holds together is read as the shape. -/
theorem reads (h : Yields K m ts 0 s) : Reads ⟨K, m⟩ ts ⟨K, .done (.shape s)⟩ := by
  obtain ⟨K', s', hreads, hcollapse⟩ := h
  have hsame := hcollapse 0 (Nat.le_refl 0)
  rw [collapse_fits (fits_tight K'), collapse_fits (fits_tight K)] at hsame
  cases hsame
  exact hreads

end Yields

/-- The texts of pieces. -/
abbrev texts (ps : List Piece) : List String := ps.map Piece.text

theorem texts_parens (d : Nat) (ps : List Piece) : texts (Piece.parens d ps) = "(" :: (texts ps ++ [")"]) := by
  simp [texts, Piece.parens]

theorem texts_commas (p q : List Piece) (items : List (List Piece)) :
    texts (Piece.commas (p :: q :: items)) = texts p ++ "," :: " " :: texts (Piece.commas (q :: items)) := by
  unfold Piece.commas
  rw [List.intercalate_cons_cons]
  simp [texts, Piece.punct, Piece.space]

theorem step_open {w : Word} (hm : Open m r) : step ⟨K, m⟩ (.word w) = some ⟨K, .done (.shape w.shape)⟩ := by
  rcases hm with rfl | ⟨rfl, -⟩ <;> rfl

/-- A name is read as a parameter. -/
theorem reads_name {p : String} (h : Identifier p) (hm : Open m r) :
    Reads ⟨K, m⟩ [p] ⟨K, .done (.shape (.param p))⟩ := by
  obtain ⟨w, rfl, hshape⟩ := h.word
  rw [← hshape]
  exact .one (step_open hm)

/-- What stands in parentheses is read as a shape of its own. -/
theorem reads_parens {d : Nat} {ps : List Piece} (hm : Open m 0)
    (h : Yields (.group :: K) .ready (texts ps) 3 s) :
    Reads ⟨K, m⟩ (texts (Piece.parens d ps)) ⟨K, .done (.shape s)⟩ := by
  obtain ⟨K', s', hreads, hcollapse⟩ := h
  have hleft : step ⟨K, m⟩ .left = some ⟨.group :: K, .ready⟩ := by
    rcases hm with rfl | ⟨rfl, -⟩ <;> rfl
  have hright : step ⟨K', .done (.shape s')⟩ .right = some ⟨K, .done (.shape s)⟩ := by
    show finish (collapse 3 K' s') = _
    rw [hcollapse 3 (Nat.le_refl 3)]
    rfl
  rw [texts_parens]
  exact .next (l := .left) hleft (hreads.trans (.one (l := .right) hright))

/-- Something goes on after a mark between blanks. -/
theorem reads_mark {K₁ K₂ : List Frame} (h : Reads st ts ⟨K₁, .done i⟩)
    (hmark : step ⟨K₁, .spaced i⟩ l = some ⟨K₂, .gap⟩) (hrest : Reads ⟨K₂, .ready⟩ us st') :
    Reads st (ts ++ " " :: l.text :: " " :: us) st' :=
  h.trans (.next (l := .blank) rfl (.next hmark (.next (l := .blank) rfl hrest)))

/-! ## Lists -/

/-- The printed tree is read as its shape, wherever it fits. -/
def Legible (t : Expr) : Prop := ∀ (d : Nat) {K : List Frame} {m : Mode}, Open m t.rank → Fits t.rank K →
  Yields K m (texts (Tree.pieces d t)) t.rank t.shape

/-- The arguments of an application, and the mark that ends them. -/
theorem reads_args (d : Nat) (callee : Shape) : ∀ {ts : List Expr} {t : Expr} (read : List Shape),
    (∀ u ∈ t :: ts, Legible u) →
    Reads ⟨.args callee read :: K, .ready⟩ (texts (Piece.commas (Tree.piecesAll d (t :: ts))) ++ [")"])
      ⟨K, .done (.shape (.invoke callee (read ++ (t :: ts).map Tree.shape)))⟩ := by
  intro ts t read h
  have hfits : Fits t.rank (Frame.args callee read :: K) := fun f hf => by
    cases hf
    exact Nat.le_succ_of_le t.rank_le
  obtain ⟨K', s', hreads, hcollapse⟩ := h t (List.mem_cons_self ..) d (.inl rfl) hfits
  have hlast : collapse 3 K' s' = (.args callee read :: K, t.shape) := hcollapse 3 t.rank_le
  cases ts with
  | nil =>
      have hright : step ⟨K', .done (.shape s')⟩ .right =
          some ⟨K, .done (.shape (.invoke callee (read ++ [t.shape])))⟩ := by
        show finish (collapse 3 K' s') = _
        rw [hlast]
        rfl
      have htexts : texts (Piece.commas (Tree.piecesAll d [t])) = texts (Tree.pieces d t) :=
        congrArg texts List.intercalate_singleton
      rw [htexts]
      exact hreads.trans (.one (l := .right) hright)
  | cons u us =>
      have hcomma : step ⟨K', .done (.shape s')⟩ .comma =
          some ⟨.args callee (read ++ [t.shape]) :: K, .gap⟩ := by
        show separate (collapse 3 K' s') = _
        rw [hlast]
        rfl
      have hrest := reads_args d callee (read ++ [t.shape]) fun v hv => h v (List.mem_cons_of_mem _ hv)
      rw [List.append_assoc] at hrest
      have htexts : texts (Piece.commas (Tree.piecesAll d (t :: u :: us))) =
          texts (Tree.pieces d t) ++ "," :: " " :: texts (Piece.commas (Tree.piecesAll d (u :: us))) :=
        texts_commas _ _ _
      rw [htexts, List.append_assoc]
      exact hreads.trans (.next (l := .comma) hcomma (.next (l := .blank) rfl hrest))

/-- The parameters of a lambda after the first one, and the mark that ends them. -/
theorem reads_names : ∀ {ps : List Param} {p : Param} (read : List String), (∀ q ∈ p :: ps, Identifier q.name) →
    Reads ⟨.names read :: K, .ready⟩
      (texts (Piece.commas ((p :: ps).map fun q => [Piece.named q.name])) ++ [")"])
      ⟨K, .done (.names (read ++ (p :: ps).map Param.name))⟩
  | [], p, read, h =>
      (reads_name (h p (List.mem_cons_self ..)) (open_ready 0)).trans (.one (l := .right) rfl)
  | q :: ps, p, read, h => by
      have hrest := reads_names (read ++ [p.name]) fun r hr => h r (List.mem_cons_of_mem _ hr)
      rw [List.append_assoc] at hrest
      rw [List.map_cons, List.map_cons, texts_commas]
      exact (reads_name (h p (List.mem_cons_self ..)) (open_ready 0)).trans
        (.next (l := .comma) rfl (.next (l := .blank) rfl hrest))

/-- **The parameter list of a lambda is read** by the time of the arrow. -/
theorem reads_params (d : Nat) {ps : List Param} (h : ∀ p ∈ ps, Identifier p.name) :
    ∃ i, Reads ⟨K, .ready⟩ (texts (Tree.paramPieces d ps)) ⟨K, .done i⟩ ∧
      step ⟨K, .spaced i⟩ .arrow = some ⟨.lambda (ps.map Param.name) :: K, .gap⟩ := by
  match ps with
  | [] => exact ⟨.names [], .next (l := .left) rfl (.one (l := .right) rfl), rfl⟩
  | [p] => exact ⟨.shape (.param p.name), reads_name (h p (List.mem_cons_self ..)) (open_ready 0), rfl⟩
  | p :: q :: ps =>
      refine ⟨.names ((p :: q :: ps).map Param.name), ?_, rfl⟩
      have hrest := reads_names (K := K) [p.name] fun r hr => h r (List.mem_cons_of_mem _ hr)
      show Reads _ (texts (Piece.parens d (Piece.commas ((p :: q :: ps).map fun r => [Piece.named r.name])))) _
      rw [texts_parens, List.map_cons, List.map_cons, texts_commas]
      exact .next (l := .left) rfl ((reads_name (h p (List.mem_cons_self ..)) (open_ready 0)).trans
        (.next (l := .comma) rfl (.next (l := .blank) rfl hrest)))

/-! ## Parts of trees -/

/-- A part of a tree, in parentheses or as it is. -/
abbrev part (enclosed : Bool) (d : Nat) (t : Expr) : List Piece :=
  if enclosed then Piece.parens d (Tree.pieces (d + 1) t) else Tree.pieces d t

theorem part_not (b : Bool) (d : Nat) (t : Expr) :
    part (!b) d t = if b then Tree.pieces d t else Piece.parens d (Tree.pieces (d + 1) t) := by
  cases b <;> rfl

section Printed

variable (d : Nat) {target callee operand lhs rhs body test ifTrue ifFalse : Expr}

theorem texts_member (m : Member Getter) (h : Tree.isContainer target = false) :
    texts (Tree.pieces d (.member target m)) =
      texts (part (!Tree.isAtom target) d target) ++ [".", m.name] := by
  rw [part_not]
  show texts (if Tree.isContainer target then _ else _) = _
  rw [h]
  exact List.map_append

theorem texts_binary (op : BinaryOp) (via : Option (Method Invoker)) :
    texts (Tree.pieces d (.binary op lhs rhs via)) = texts (part (Tree.isCompound lhs) d lhs) ++
      " " :: op.symbol :: " " :: texts (part (Tree.isCompound rhs) d rhs) := by
  show texts (part _ d lhs ++ Piece.infixed op.symbol ++ part _ d rhs) = _
  simp [texts, Piece.infixed, Piece.space]

theorem texts_lambda (ps : List Param) : texts (Tree.pieces d (.lambda ps body)) =
    texts (Tree.paramPieces d ps) ++ " " :: "=>" :: " " :: texts (Tree.pieces d body) := by
  show texts (Tree.paramPieces d ps ++ [Piece.space, Piece.punct "=>", Piece.space] ++ Tree.pieces d body) = _
  simp [texts, Piece.punct, Piece.space]

theorem texts_invoke (args : List Expr) : texts (Tree.pieces d (.invoke callee args)) =
    texts (part (!Tree.isAtom callee) d callee) ++
      "(" :: (texts (Piece.commas (Tree.piecesAll (d + 1) args)) ++ [")"]) := by
  rw [part_not, ← texts_parens]
  exact List.map_append

theorem texts_conditional : texts (Tree.pieces d (.conditional test ifTrue ifFalse)) =
    texts (part (Tree.isOpenEnded test) d test) ++ " " :: "?" :: " " ::
      (texts (part (Tree.isOpenEnded ifTrue) d ifTrue) ++ " " :: ":" :: " " ::
        texts (part (Tree.isOpenEnded ifFalse) d ifFalse)) := by
  show texts (part _ d test ++ Piece.infixed "?" ++ part _ d ifTrue ++ Piece.infixed ":" ++
    part _ d ifFalse) = _
  simp [texts, Piece.infixed, Piece.space]

end Printed

namespace Legible

variable {t : Expr}

/-- A part is read as its shape, if it stands in parentheses where it holds together too loosely. -/
theorem grouped (h : Legible t) (d : Nat) {b : Bool} (hb : b = false → t.rank ≤ r) (hm : Open m r)
    (hK : Fits r K) : Yields K m (texts (part b d t)) r t.shape := by
  cases b with
  | false =>
      have hr := hb rfl
      have hopen : Open m t.rank := hm.imp_right fun ⟨hm, hr0⟩ => ⟨hm, Nat.le_zero.1 (hr0 ▸ hr)⟩
      exact (h d hopen (hK.mono hr)).mono hr
  | true =>
      have hfits : Fits t.rank (Frame.group :: K) := fun f hf => by
        cases hf
        exact Nat.le_succ_of_le t.rank_le
      have hopen : Open m 0 := hm.imp_right fun ⟨hm, _⟩ => ⟨hm, rfl⟩
      exact .of_reads (reads_parens hopen ((h (d + 1) (.inl rfl) hfits).mono t.rank_le))

/-- A target, a callee, or the operand of a unary operation. -/
theorem atom (h : Legible t) (d : Nat) (hm : Open m 0) :
    Reads ⟨K, m⟩ (texts (part (!Tree.isAtom t) d t)) ⟨K, .done (.shape t.shape)⟩ := by
  have hrank : (!Tree.isAtom t) = false → t.rank ≤ 0 := fun hatom =>
    Nat.le_of_eq (Tree.rank_atom (by simpa using hatom))
  exact (h.grouped d hrank hm ((fits_tight K).mono (Nat.zero_le 1))).reads

/-- An operand of a binary operation. -/
theorem operand (h : Legible t) (d : Nat) : Yields K .ready (texts (part (Tree.isCompound t) d t)) 1 t.shape :=
  h.grouped d Tree.rank_operand (.inl rfl) (fits_tight K)

/-- A part of a conditional. -/
theorem branch (h : Legible t) (d : Nat) (hK : Fits 2 K) :
    Yields K .ready (texts (part (Tree.isOpenEnded t) d t)) 2 t.shape :=
  h.grouped d Tree.rank_part (.inl rfl) hK

/-! ## Nodes -/

variable {lhs rhs operand target body callee test ifTrue ifFalse : Expr}

theorem literal {n : Int64} (hn : 0 ≤ n.toInt) (ty : Ty) : Legible (.literal (.int n) ty) := by
  intro d K m hm _
  obtain ⟨w, hw, hshape⟩ := word_of_int hn
  show Yields K m [Value.text (.int n)] 0 (.literal (.int n))
  rw [← hw, ← hshape]
  exact .of_reads (.one (step_open hm))

theorem param {p : Param} (hp : Identifier p.name) : Legible (.param p) :=
  fun _ {_ _} hm _ => .of_reads (reads_name hp hm)

theorem member (h : Legible target) {m : Member Getter} (hm : Identifier m.name)
    (hcontainer : Tree.isContainer target = false) : Legible (.member target m) := by
  intro d K mode hopen _
  obtain ⟨w, hw, -⟩ := hm.word
  have hfield : step ⟨K, .field target.shape⟩ (.word w) =
      some ⟨K, .done (.shape (.member target.shape m.name))⟩ := by
    rw [← hw]
    rfl
  rw [texts_member d m hcontainer, ← hw]
  exact .of_reads ((h.atom d hopen).trans (.next (l := .dot) rfl (.one (l := .word w) hfield)))

theorem binary (hl : Legible lhs) (hr : Legible rhs) (op : BinaryOp) (via : Option (Method Invoker)) :
    Legible (.binary op lhs rhs via) := by
  intro d K m hm hK
  obtain rfl : m = .ready := hm.resolve_right nofun
  obtain ⟨K₁, s₁, hreads₁, hcollapse₁⟩ := hl.operand (K := K) d
  have hlhs : collapse 1 K₁ s₁ = (K, lhs.shape) := (hcollapse₁ 1 (Nat.le_refl 1)).trans (collapse_fits hK)
  have hsign : step ⟨K₁, .spaced (.shape s₁)⟩ (.sign op) = some ⟨.operand op lhs.shape :: K, .gap⟩ := by
    show some (State.mk (.operand op (collapse 1 K₁ s₁).2 :: (collapse 1 K₁ s₁).1) .gap) = _
    rw [hlhs]
  obtain ⟨K₂, s₂, hreads₂, hcollapse₂⟩ := hr.operand (K := .operand op lhs.shape :: K) d
  refine ⟨K₂, s₂, ?_, fun k hk => (hcollapse₂ k (Nat.le_of_succ_le hk)).trans (collapse_cons hk)⟩
  rw [texts_binary]
  exact reads_mark hreads₁ hsign hreads₂

theorem unary (h : Legible operand) {op : UnaryOp} (hop : op ≠ .convert) (via : Option (Method Invoker))
    (ty : Ty) : Legible (.unary op operand via ty) := by
  intro d K m hm _
  obtain rfl : m = .ready := hm.resolve_right nofun
  have hreads := h.atom (K := .unary op :: K) d (.inr ⟨rfl, rfl⟩)
  rw [part_not] at hreads
  refine ⟨.unary op :: K, operand.shape, ?_, fun k hk => collapse_cons hk⟩
  cases op with
  | convert => exact absurd rfl hop
  | not => exact .next (l := .bang) rfl hreads
  | negate => exact .next (l := .sign .sub) rfl hreads

theorem lambda (h : Legible body) {ps : List Param} (hps : ∀ p ∈ ps, Identifier p.name) :
    Legible (.lambda ps body) := by
  intro d K m hm _
  obtain rfl : m = .ready := hm.resolve_right nofun
  obtain ⟨i, hparams, harrow⟩ := reads_params (K := K) d hps
  have hfits : Fits body.rank (Frame.lambda (ps.map Param.name) :: K) := fun f hf => by
    cases hf
    exact body.rank_le
  obtain ⟨K', s', hreads, hcollapse⟩ := h d (.inl rfl) hfits
  refine ⟨K', s', ?_, fun k hk => (hcollapse k (Nat.le_trans body.rank_le hk)).trans (collapse_cons hk)⟩
  rw [texts_lambda]
  exact reads_mark hparams harrow hreads

theorem invoke (hcallee : Legible callee) {args : List Expr} (hargs : ∀ a ∈ args, Legible a) :
    Legible (.invoke callee args) := by
  intro d K m hm _
  rw [texts_invoke, Tree.shape_invoke]
  refine .of_reads ((hcallee.atom d hm).trans (.next (l := .left) rfl ?_))
  cases args with
  | nil => exact .one (l := .right) rfl
  | cons a args => exact reads_args (d + 1) callee.shape [] hargs

theorem conditional (ht : Legible test) (hp : Legible ifTrue) (hn : Legible ifFalse) :
    Legible (.conditional test ifTrue ifFalse) := by
  intro d K m hm hK
  obtain rfl : m = .ready := hm.resolve_right nofun
  have hfits : Fits 2 K := hK.mono (Nat.le_succ 2)
  obtain ⟨K₁, s₁, hreads₁, hcollapse₁⟩ := ht.branch d hfits
  have htest : collapse 2 K₁ s₁ = (K, test.shape) := (hcollapse₁ 2 (Nat.le_refl 2)).trans (collapse_fits hK)
  have hquestion : step ⟨K₁, .spaced (.shape s₁)⟩ .question = some ⟨.ifTrue test.shape :: K, .gap⟩ := by
    show some (State.mk (.ifTrue (collapse 2 K₁ s₁).2 :: (collapse 2 K₁ s₁).1) .gap) = _
    rw [htest]
  have hmiddle : Fits 2 (.ifTrue test.shape :: K) := fun f hf => by
    cases hf
    exact Nat.le_add_right 2 2
  obtain ⟨K₂, s₂, hreads₂, hcollapse₂⟩ := hp.branch d hmiddle
  have hcolon : step ⟨K₂, .spaced (.shape s₂)⟩ .colon =
      some ⟨.ifFalse test.shape ifTrue.shape :: K, .gap⟩ := by
    show otherwise (collapse 2 K₂ s₂) = _
    rw [hcollapse₂ 2 (Nat.le_refl 2)]
    rfl
  have hlast : Fits 2 (.ifFalse test.shape ifTrue.shape :: K) := fun f hf => by
    cases hf
    exact Nat.le_succ 2
  obtain ⟨K₃, s₃, hreads₃, hcollapse₃⟩ := hn.branch d hlast
  refine ⟨K₃, s₃, ?_, fun k hk => (hcollapse₃ k (Nat.le_of_succ_le hk)).trans (collapse_cons hk)⟩
  rw [texts_conditional]
  exact reads_mark hreads₁ hquestion (reads_mark hreads₂ hcolon hreads₃)

end Legible

/-- **A printed tree is read as its shape.** -/
theorem legible {t : Expr} (ht : t.Everywhere Tree.Plain) : Legible t := by
  induction t using Tree.nodewise with
  | literal v ty =>
      obtain ⟨n, rfl, hn⟩ := ht.here
      exact .literal hn ty
  | param p => exact .param ht.here
  | staticMember m => exact ht.here.elim
  | member target m ih =>
      have htarget : target.Everywhere Tree.Plain := ht.child (List.mem_singleton.2 rfl)
      have hcontainer : Tree.isContainer target = false := by
        cases target with
        | literal v ty =>
            obtain ⟨n, rfl, -⟩ := htarget.here
            rfl
        | _ => rfl
      exact (ih htarget).member ht.here hcontainer
  | staticCall m args ih => exact ht.here.elim
  | call target m args iht ih => exact ht.here.elim
  | binary op lhs rhs via ihl ihr =>
      exact (ihl (ht.child (List.mem_cons_self ..))).binary
        (ihr (ht.child (List.mem_cons_of_mem _ (List.mem_singleton.2 rfl)))) op via
  | unary op operand via ty ih => exact (ih (ht.child (List.mem_singleton.2 rfl))).unary ht.here via ty
  | lambda ps body ih => exact (ih (ht.child (List.mem_singleton.2 rfl))).lambda ht.here
  | invoke callee args ihc ih =>
      exact (ihc (ht.child (List.mem_cons_self ..))).invoke fun a ha =>
        ih a ha (ht.child (List.mem_cons_of_mem _ ha))
  | conditional test ifTrue ifFalse iht ihp ihn =>
      exact (iht (ht.child (List.mem_cons_self ..))).conditional
        (ihp (ht.child (List.mem_cons_of_mem _ (List.mem_cons_self ..))))
        (ihn (ht.child (List.mem_cons_of_mem _ (List.mem_cons_of_mem _ (List.mem_singleton.2 rfl)))))

/-- The text of a tree, read from the start. -/
theorem reads_text {t : Expr} (ht : t.Everywhere Tree.Plain) :
    ∃ K s, Reads ⟨[], .ready⟩ (texts (Tree.pieces 0 t)) ⟨K, .done (.shape s)⟩ ∧
      collapse 3 K s = ([], t.shape) := by
  obtain ⟨K, s, hreads, hcollapse⟩ := legible ht 0 (K := []) (.inl rfl) nofun
  exact ⟨K, s, hreads, hcollapse 3 t.rank_le⟩

end Reader

/-- **The printed form keeps the grouping.** Trees of parameters, integers that are not negative, operations
other than conversions, lambdas, applications of function values, conditionals and member reads have the same
shape if they are printed alike. -/
theorem Tree.shape_eq_of_text {a b : Expr} (ha : a.Everywhere Tree.Plain) (hb : b.Everywhere Tree.Plain)
    (htext : a.text = b.text) : a.shape = b.shape := by
  obtain ⟨K, s, hreads, hcollapse⟩ := Reader.reads_text ha
  obtain ⟨K', s', hreads', hcollapse'⟩ := Reader.reads_text hb
  cases hreads.unique hreads' htext
  exact (Prod.mk.inj (hcollapse.symm.trans hcollapse')).2

namespace Reprinted

def x (id : Nat) : Param := ⟨id, "x", .int⟩

def f (id : Nat) : Param := ⟨id, "f", .func [.int] .int⟩

/-- `(x => x - 1)(-f(x))` -/
def tree (i j : Nat) : Expr :=
  .invoke (.lambda [x i] (.operation .sub (.param (x i)) (.literal (.int 1) .int)))
    [.negation (.invoke (.param (f j)) [.param (x j)])]

theorem identifier_x (id : Nat) : Identifier (x id).name := ⟨⟨"x", by decide, rfl⟩, rfl, rfl⟩

theorem identifier_f (id : Nat) : Identifier (f id).name := ⟨⟨"f", by decide, rfl⟩, rfl, rfl⟩

theorem plain (i j : Nat) : (tree i j).Everywhere Tree.Plain := by
  have hx : ∀ id, (Tree.param (x id) : Expr).Everywhere Tree.Plain := fun id =>
    Tree.everywhere_leaf (identifier_x id) rfl
  have hone : (Tree.literal (.int 1) .int : Expr).Everywhere Tree.Plain :=
    Tree.everywhere_leaf ⟨1, rfl, by decide⟩ rfl
  have hlambda : Tree.Plain (.lambda [x i] (.operation .sub (.param (x i)) (.literal (.int 1) .int))) :=
    List.forall_mem_singleton.2 (identifier_x i)
  exact Tree.everywhere_pair trivial rfl
    (Tree.everywhere_single hlambda rfl (Tree.everywhere_pair trivial rfl (hx i) hone))
    (Tree.everywhere_single (by nofun : UnaryOp.negate ≠ .convert) rfl
      (Tree.everywhere_pair trivial rfl (Tree.everywhere_leaf (identifier_f j) rfl) (hx j)))

end Reprinted

/-- `(x => x - 1)(-f(x))`, with the same parameter named `x` twice and with two of them. -/
theorem Tree.shape_eq_of_text_reprinted :
    (Reprinted.tree 0 0).text = (Reprinted.tree 1 2).text ∧ (Reprinted.tree 0 0).shape = (Reprinted.tree 1 2).shape :=
  ⟨rfl, Tree.shape_eq_of_text (Reprinted.plain 0 0) (Reprinted.plain 1 2) rfl⟩

end DualForm
