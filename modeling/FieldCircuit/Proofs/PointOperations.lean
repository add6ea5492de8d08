import FieldCircuit.Proofs.FilterAdjoint
import FieldCircuit.Proofs.Kernel.Acceptance

/-!
# Point operations are flat maps

What a point operation makes of its operands is said without points, layouts, launches or kinds of
elements: words are combined with the words at the same positions, or with a single number, and those of
complex operands with the words half of the operand further on. No law of arithmetic is used, so that
this holds for single precision to the bit.
-/

namespace FieldCircuit

variable {α : Type}

/-- What a point operation makes of the words of operands of some types, position by position. -/
inductive Elementwise (ar : Arithmetic α) :
    Opcode → List FieldType → List (Array α) → Array α → Prop
  | unary (op : UnaryOp) (t : FieldType) (x : Array α) :
      Elementwise ar (.unary op) [t] [x] (x.map fun a => op.apply ar a)
  | scale (factor : Float32) (t : FieldType) (x : Array α) :
      Elementwise ar (.scale factor) [t] [x] (x.map fun a => ar.mul a (ar.literal factor))
  | offset (amount : Float32) (t : FieldType) (x : Array α) :
      Elementwise ar (.offset amount) [t] [x] (x.map fun a => ar.add a (ar.literal amount))
  /-- Operands of the same shapes, whether their elements are numbers or pixels. -/
  | zipped (op : BinaryOp) {first second : FieldType} (field : second.field = first.field)
      (tensor : second.tensor = first.tensor) (x y : Array α) :
      Elementwise ar (.binary op) [first, second] [x, y]
        (Array.zipWith (fun a b => op.apply ar a b) x y)
  /-- A second operand that is a single number. -/
  | broadcast (op : BinaryOp) (first : FieldType) {second : FieldType}
      (point : second.dimensions = 0) (scalar : second.elements = 1) (x : Array α) (b : α) :
      Elementwise ar (.binary op) [first, second] [x, #[b]] (x.map fun a => op.apply ar a b)
  /-- Real parts come before imaginary parts. -/
  | complex (op : BinaryOp) {t : FieldType} {n : Nat} (elements : n = t.elements * t.points)
      {x y words : Array α} (size : words.size = 2 * n)
      (parts : ∀ i < n, (words.getD i ar.zero, words.getD (n + i) ar.zero) =
        op.applyComplex ar (x.getD i ar.zero, x.getD (n + i) ar.zero)
          (y.getD i ar.zero, y.getD (n + i) ar.zero)) :
      Elementwise ar (.complexBinary op) [t, t] [x, y] words

def complexWord (ar : Arithmetic α) (op : BinaryOp) (n : Nat) (x y : Array α) (i : Nat) : α :=
  if i < n then
    (op.applyComplex ar (x.getD i ar.zero, x.getD (n + i) ar.zero)
      (y.getD i ar.zero, y.getD (n + i) ar.zero)).1
  else
    (op.applyComplex ar (x.getD (i - n) ar.zero, x.getD i ar.zero)
      (y.getD (i - n) ar.zero, y.getD i ar.zero)).2

theorem complexWord_pair (ar : Arithmetic α) (op : BinaryOp) {n i : Nat} (x y : Array α)
    (hi : i < n) :
    (complexWord ar op n x y i, complexWord ar op n x y (n + i)) =
      op.applyComplex ar (x.getD i ar.zero, x.getD (n + i) ar.zero)
        (y.getD i ar.zero, y.getD (n + i) ar.zero) := by
  rw [complexWord, complexWord, if_pos hi, if_neg (by omega), Nat.add_sub_cancel_left]

theorem eq_table_complexWord {ar : Arithmetic α} {op : BinaryOp} {n : Nat} {x y words : Array α}
    (hsize : words.size = 2 * n)
    (hparts : ∀ i < n, (words.getD i ar.zero, words.getD (n + i) ar.zero) =
      op.applyComplex ar (x.getD i ar.zero, x.getD (n + i) ar.zero)
        (y.getD i ar.zero, y.getD (n + i) ar.zero)) :
    words = table (2 * n) (complexWord ar op n x y) := by
  rw [← hsize]
  refine (eq_table_getD words ar.zero).trans (table_congr fun i hi => ?_)
  by_cases hlow : i < n
  · exact congrArg Prod.fst ((hparts i hlow).trans (complexWord_pair ar op x y hlow).symm)
  · obtain ⟨j, rfl⟩ := Nat.exists_eq_add_of_le (Nat.le_of_not_lt hlow)
    have hj : j < n := by omega
    exact congrArg Prod.snd ((hparts j hj).trans (complexWord_pair ar op x y hj).symm)

theorem Layout.SameExtents.elementAt_of_single {l : Layout} {t : FieldType}
    (h : l.SameExtents t.layout) (hpoint : t.dimensions = 0) (hscalar : t.elements = 1) {p : Point}
    (hp : l.Contains p) {e : Nat} (he : e < l.elements) : l.elementAt p e = 0 := by
  have hlt := hp.elementAt_lt he
  rw [h.points, h.elements, t.layout_points, FieldType.points_of_dimensions hpoint,
    show t.layout.elements = 1 from hscalar] at hlt
  omega

namespace Pointwise

variable {ar : Arithmetic α} {k : Pointwise} {a : Array α}

theorem exists_visit {w : WorkGroup} {others : List (Array α)} {stores : List (Nat × α)}
    (h : k.stores ar w (a :: others) = .ok stores) {store : Nat × α} (hmem : store ∈ stores) :
    ∃ visit ∈ k.map.visits w, ∃ group,
      k.storesAt ar a others[0]? visit = .ok group ∧ store ∈ group := by
  obtain ⟨_, hfirst, h⟩ := bind_eq_ok_iff.1 h
  obtain rfl := Except.ok.inj hfirst
  obtain ⟨lists, hlists, hstores⟩ := bind_eq_ok_iff.1 h
  rw [← Except.ok.inj hstores] at hmem
  obtain ⟨group, hgroup, hstore⟩ := List.mem_flatten.1 hmem
  obtain ⟨visit, hvisit, hok⟩ := forall₂_exists_left (mapM_eq_ok_iff.1 hlists) hgroup
  exact ⟨visit, hvisit, group, hok, hstore⟩

theorem realStore_eq_ok {b : Option (Array α)} {p : Point} {e : Nat} {group : List (Nat × α)}
    (h : k.realStore ar a b p e = .ok group) :
    group = [(k.out.elementAt p e, k.op.apply ar (a.getD (k.a.elementAt p e) ar.zero)
      ((b.getD #[]).getD (k.secondIndex p e) ar.zero))] := by
  obtain ⟨x, hx, h⟩ := bind_eq_ok_iff.1 h
  rw [← eq_getD_of_fetch hx ar.zero]
  cases b with
  | none => exact (Except.ok.inj h).symm
  | some b =>
      obtain ⟨y, hy, hgroup⟩ := bind_eq_ok_iff.1 h
      rw [← Except.ok.inj hgroup, eq_getD_of_fetch hy ar.zero]
      rfl

theorem complexStores_eq_ok {op : BinaryOp} {b : Array α} {second : Layout} {p : Point} {e : Nat}
    {group : List (Nat × α)} (h : k.complexStores ar op a b second p e = .ok group) :
    group = [
      (k.out.elementAt p e, (op.applyComplex ar
        (a.getD (k.a.elementAt p e) ar.zero, a.getD (k.a.elementAt p e + k.a.partStride) ar.zero)
        (b.getD (k.secondIndex p e) ar.zero,
          b.getD (k.secondIndex p e + second.partStride) ar.zero)).1),
      (k.out.elementAt p e + k.out.partStride, (op.applyComplex ar
        (a.getD (k.a.elementAt p e) ar.zero, a.getD (k.a.elementAt p e + k.a.partStride) ar.zero)
        (b.getD (k.secondIndex p e) ar.zero,
          b.getD (k.secondIndex p e + second.partStride) ar.zero)).2)] := by
  obtain ⟨x, hx, h⟩ := bind_eq_ok_iff.1 h
  obtain ⟨x', hx', h⟩ := bind_eq_ok_iff.1 h
  obtain ⟨y, hy, h⟩ := bind_eq_ok_iff.1 h
  obtain ⟨y', hy', hgroup⟩ := bind_eq_ok_iff.1 h
  rw [← Except.ok.inj hgroup, eq_getD_of_fetch hx ar.zero, eq_getD_of_fetch hx' ar.zero,
    eq_getD_of_fetch hy ar.zero, eq_getD_of_fetch hy' ar.zero]

variable {t : FieldType} {mode : AddressingMode} {caps : Capabilities} {w : WorkGroup}

/-- A kernel that is not complex stores what it makes of the word at the same position and of the word of
the second operand at the position where `g` says it is read. -/
theorem snd_of_real (hw : Addressing.workGroup? t mode caps = .ok w)
    (hmap : k.map = PointMap.of t mode) (hout : k.out = t.layout) (hop : ∀ op, k.op ≠ .complex op)
    (ha : ∀ p e, k.a.elementAt p e = t.layout.elementAt p e) {others : List (Array α)} {g : Nat → Nat}
    (hg : ∀ b ∈ others[0]?, ∀ p e, t.layout.Contains p → e < t.layout.elements →
      k.secondIndex p e = g (t.layout.elementAt p e))
    {stores : List (Nat × α)} (h : k.stores ar w (a :: others) = .ok stores) {store : Nat × α}
    (hmem : store ∈ stores) :
    store.2 = k.op.apply ar (a.getD store.1 ar.zero)
      ((others[0]?.getD #[]).getD (g store.1) ar.zero) := by
  obtain ⟨⟨p, e⟩, hvisit, group, hgroup, hmem⟩ := exists_visit h hmem
  rw [hmap, PointMap.mem_visits hw] at hvisit
  rw [storesAt_of_real hop] at hgroup
  rw [realStore_eq_ok hgroup, List.mem_singleton] at hmem
  rw [hmem, hout, ha]
  cases hsecond : others[0]? with
  | none => rfl
  | some b => rw [hg b hsecond p e hvisit.1 hvisit.2]

/-- A complex kernel stores the real parts of what it makes of pairs in the first half of its output, and
the imaginary parts in the second. -/
theorem snd_of_complex (hw : Addressing.workGroup? t mode caps = .ok w)
    (hmap : k.map = PointMap.of t mode) (hout : k.out = t.layout)
    (hcomplex : t.element.isComplex = true) {op : BinaryOp} (hop : k.op = .complex op)
    (ha : k.a = t.layout) (hb : k.b = some t.layout) (hbroadcast : k.broadcast = false) {n : Nat}
    (hn : n = t.elements * t.points) {b : Array α} {stores : List (Nat × α)}
    (h : k.stores ar w [a, b] = .ok stores) {store : Nat × α} (hmem : store ∈ stores) :
    store.2 = complexWord ar op n a b store.1 := by
  obtain ⟨⟨p, e⟩, hvisit, group, hgroup, hmem⟩ := exists_visit h hmem
  rw [hmap, PointMap.mem_visits hw] at hvisit
  have hstride : t.layout.partStride = n := by
    rw [(Layout.words_of_complex (l := t.layout) hcomplex).2, t.layout_points, hn]
    rfl
  have hlt : t.layout.elementAt p e < n := by
    rw [hn, ← t.layout_points]
    exact hvisit.1.elementAt_lt hvisit.2
  have hsecond := secondIndex_of_some hb hbroadcast p e
  have hpair : group = _ := complexStores_eq_ok (storesAt_of_complex hop hb ar a b p e ▸ hgroup)
  rw [hpair, ha, hout, hsecond, hstride] at hmem
  generalize t.layout.elementAt p e = i at hlt hmem
  simp only [List.mem_cons, List.not_mem_nil, or_false] at hmem
  rcases hmem with rfl | rfl
  · rw [complexWord, if_pos hlt, Nat.add_comm n]
  · rw [complexWord, if_neg (by omega), Nat.add_sub_cancel]

end Pointwise

namespace Synthesis.Pointwise

variable {ar : Arithmetic α} {caps : Capabilities}

theorem length_of_outputType {o : Opcode} {inputs : List FieldType} {output : FieldType}
    (h : outputType o inputs = .ok output) {p : PointOp} (hp : pointOp o = .ok p) :
    inputs.length = p.operands := by
  simp only [outputType, hp, ok_bind, bind_eq_ok_iff] at h
  obtain ⟨_, hcount, -⟩ := h
  exact expectOperands_eq_ok hcount

theorem real_of_outputType {o : Opcode} {first output : FieldType} {rest : List FieldType}
    (h : outputType o (first :: rest) = .ok output) {p : PointOp} (hp : pointOp o = .ok p)
    (hop : ∀ op, p ≠ .complex op) : Real first rest.head? output ∧ rest.length ≤ 1 := by
  rcases outputType_eq_ok h hp with ⟨op, hcomplex, -⟩ | ⟨-, _, _, heq, hreal, hrest⟩
  · exact absurd hcomplex (hop op)
  · obtain ⟨rfl, rfl⟩ := List.cons.inj heq
    exact ⟨hreal, hrest⟩

theorem complex_of_outputType {op : BinaryOp} {inputs : List FieldType} {output : FieldType}
    (h : outputType (.complexBinary op) inputs = .ok output) :
    inputs = [output, output] ∧ output.element.isComplex = true := by
  rcases outputType_eq_ok h rfl with ⟨_, -, hinputs, hcomplex⟩ | ⟨hop, -⟩
  · exact ⟨hinputs, hcomplex⟩
  · exact absurd rfl (hop op)

/-- A real operation leaves, at every position, what it makes of the word there and of the word of the
second operand at the position where `g` says it is read. -/
theorem IsPoint.run_real {s : Stage} {p : PointOp} {first output : FieldType}
    {rest : List FieldType} (h : IsPoint s p (first :: rest) output caps) {o : Opcode}
    (houtput : outputType o (first :: rest) = .ok output) (hp : pointOp o = .ok p)
    (hop : ∀ op, p ≠ .complex op) {g : Nat → Nat}
    (hg : ∀ second ∈ rest.head?, ∀ q e, output.layout.Contains q → e < output.layout.elements →
      (if isBroadcast first second then 0 else second.layout.elementAt q e) =
        g (output.layout.elementAt q e))
    {x words : Array α} {others intermediates : List (Array α)}
    (haccepts : (Operation.single s output).Accepts (first :: rest) (x :: others) words
      intermediates) :
    ((Operation.single s output).run ar (x :: others) [words] intermediates).result = .ok () ∧
      ((Operation.single s output).run ar (x :: others) [words] intermediates).outputs =
        [table x.size fun i => p.apply ar (x.getD i ar.zero)
          ((others[0]?.getD #[]).getD (g i) ar.zero)] := by
  obtain ⟨a, ha, hprogram⟩ := h.program
  obtain rfl : first = a := Option.some.inj ha
  obtain ⟨hreal, hrest⟩ := real_of_outputType houtput hp hop
  obtain ⟨hx, hothers⟩ := List.cons.inj haccepts.inputs
  have hstages : (Operation.single s output).stages = [s] := rfl
  have hwords : x.size = (Operation.single s output).output.words := by
    rw [hx, ← FieldType.words_withElement hreal.real, ← hreal.output]
    rfl
  rw [hwords]
  refine Operation.run_eq_table hstages h.takes (h.total houtput hp) haccepts
    fun stores hstores store hmem => ?_
  rw [hprogram] at hstores
  refine FieldCircuit.Pointwise.snd_of_real h.launch rfl rfl hop (fun q e => ?_) ?_ hstores hmem
  · rw [hreal.output]
    rfl
  · intro b hb q e hq he
    cases rest with
    | nil =>
        rw [List.map_eq_nil_iff.1 hothers] at hb
        cases hb
    | cons second rest =>
        obtain rfl : rest = [] := by simpa using hrest
        rw [← hg second rfl q e hq he]
        rfl

/-- An operation on complex numbers leaves the real parts of what it makes of the pairs in the operands,
and then the imaginary parts. -/
theorem IsPoint.run_complex {s : Stage} {op : BinaryOp} {t : FieldType}
    (h : IsPoint s (.complex op) [t, t] t caps) (hcomplex : t.element.isComplex = true)
    (htotal : s.program.Total s.workgroup [t.words, t.words] t.words) {n : Nat}
    (hn : n = t.elements * t.points) {x y words : Array α} {intermediates : List (Array α)}
    (haccepts : (Operation.single s t).Accepts [t, t] [x, y] words intermediates) :
    ((Operation.single s t).run ar [x, y] [words] intermediates).result = .ok () ∧
      ((Operation.single s t).run ar [x, y] [words] intermediates).outputs =
        [table (2 * n) (complexWord ar op n x y)] := by
  obtain ⟨a, ha, hprogram⟩ := h.program
  obtain rfl : t = a := Option.some.inj ha
  obtain ⟨hwords, -⟩ := Layout.words_of_complex (l := t.layout) hcomplex
  rw [t.layout_points] at hwords
  have hsize : 2 * n = (Operation.single s t).output.words := by
    rw [hn, Nat.mul_comm 2]
    exact hwords.symm
  have hstages : (Operation.single s t).stages = [s] := rfl
  rw [hsize]
  refine Operation.run_eq_table hstages h.takes htotal haccepts fun stores hstores store hmem => ?_
  rw [hprogram] at hstores
  exact FieldCircuit.Pointwise.snd_of_complex h.launch rfl rfl hcomplex rfl rfl rfl
    (by simp [broadcasts, isBroadcast]) hn hstores hmem

theorem IsPoint.run_map {s : Stage} {o : Opcode} {p : PointOp} {t output : FieldType}
    (h : IsPoint s p [t] output caps) (houtput : outputType o [t] = .ok output)
    (hp : pointOp o = .ok p) (hop : ∀ op, p ≠ .complex op) {f : α → α}
    (hf : ∀ a b, p.apply ar a b = f a) {x words : Array α} {intermediates : List (Array α)}
    (haccepts : (Operation.single s output).Accepts [t] [x] words intermediates) :
    ((Operation.single s output).run ar [x] [words] intermediates).result = .ok () ∧
      ((Operation.single s output).run ar [x] [words] intermediates).outputs = [x.map f] := by
  rw [map_eq_table f x ar.zero, ← funext fun i => hf (x.getD i ar.zero) ((#[] : Array α).getD i ar.zero)]
  exact h.run_real (g := id) houtput hp hop (by simp) haccepts

/-- Whether or not the second of two operands of the same shapes counts as a single number, it is read at
the position that is stored. -/
theorem secondIndex_of_sameShapes {first second output : FieldType}
    (hreal : Real first (some second) output) (hfield : second.field = first.field)
    (htensor : second.tensor = first.tensor) {q : Point} {e : Nat} (hq : output.layout.Contains q)
    (he : e < output.layout.elements) :
    (if isBroadcast first second then 0 else second.layout.elementAt q e) =
      output.layout.elementAt q e := by
  have hextents : output.layout.SameExtents second.layout := by
    rw [hreal.output]
    exact FieldType.sameExtents hfield.symm htensor.symm
  split
  · rename_i hbroadcast
    simp only [isBroadcast, Bool.and_eq_true, beq_iff_eq] at hbroadcast
    exact (hextents.elementAt_of_single hbroadcast.1.1 hbroadcast.1.2 hq he).symm
  · exact (hextents.elementAt q e).symm

theorem secondIndex_of_single {first second output : FieldType}
    (hreal : Real first (some second) output) (hpoint : second.dimensions = 0)
    (hscalar : second.elements = 1) {q : Point} {e : Nat} (hq : output.layout.Contains q)
    (he : e < output.layout.elements) :
    (if isBroadcast first second then 0 else second.layout.elementAt q e) = 0 := by
  split
  · rfl
  · rename_i hbroadcast
    -- a single number that is not used at every point has the type of the first operand
    have hsame : first = second := by
      simpa [isBroadcast, hpoint, hscalar] using hbroadcast
    have hextents : output.layout.SameExtents second.layout := by
      rw [hreal.output, hsame]
      exact ⟨rfl, rfl, rfl, rfl⟩
    rw [← hextents.elementAt]
    exact hextents.elementAt_of_single hpoint hscalar hq he

variable {o : Opcode} {inputs : List FieldType} {output : FieldType}

/-- Operands that a point operation accepts have words that it can be applied to. -/
theorem exists_elementwise (h : outputType o inputs = .ok output) (ar : Arithmetic α)
    {xs : List (Array α)} (hxs : xs.map Array.size = inputs.map FieldType.words) :
    ∃ words, Elementwise ar o inputs xs words := by
  obtain ⟨p, hp, -⟩ := bind_eq_ok_iff.1 h
  have hlength := length_of_outputType h hp
  have hxlength : xs.length = inputs.length := by simpa using congrArg List.length hxs
  have hone : p.operands = 1 → ∃ t x, inputs = [t] ∧ xs = [x] := by
    intro hcount
    obtain ⟨t, rfl⟩ := List.length_eq_one_iff.1 (hlength.trans hcount)
    obtain ⟨x, rfl⟩ := List.length_eq_one_iff.1 hxlength
    exact ⟨t, x, rfl, rfl⟩
  cases o with
  | unary op =>
      obtain rfl : PointOp.unary op = p := Except.ok.inj hp
      obtain ⟨t, x, rfl, rfl⟩ := hone rfl
      exact ⟨_, .unary op t x⟩
  | scale factor =>
      obtain rfl : PointOp.scale factor = p := Except.ok.inj hp
      obtain ⟨t, x, rfl, rfl⟩ := hone rfl
      exact ⟨_, .scale factor t x⟩
  | offset amount =>
      obtain rfl : PointOp.offset amount = p := Except.ok.inj hp
      obtain ⟨t, x, rfl, rfl⟩ := hone rfl
      exact ⟨_, .offset amount t x⟩
  | binary op =>
      obtain rfl : PointOp.binary op = p := Except.ok.inj hp
      obtain ⟨first, second, rfl⟩ := List.length_eq_two.1 hlength
      obtain ⟨x, y, rfl⟩ := List.length_eq_two.1 hxlength
      obtain ⟨hreal, -⟩ := real_of_outputType h hp (by simp)
      rcases (hreal.second second rfl).2 with hbroadcast | ⟨hfield, htensor⟩
      · simp only [isBroadcast, Bool.and_eq_true, beq_iff_eq] at hbroadcast
        have hy : y.size = 1 := by
          have hwords : y.size = second.words := (List.cons.inj (List.cons.inj hxs).2).1
          rw [hwords, FieldType.words_of_real (hreal.second second rfl).1, hbroadcast.1.2,
            FieldType.points_of_dimensions hbroadcast.1.1]
        obtain ⟨b, rfl⟩ := Array.size_eq_one_iff.1 hy
        exact ⟨_, .broadcast op first hbroadcast.1.1 hbroadcast.1.2 x b⟩
      · exact ⟨_, .zipped op hfield htensor x y⟩
  | complexBinary op =>
      obtain ⟨rfl, hcomplex⟩ := complex_of_outputType h
      obtain ⟨x, y, rfl⟩ := List.length_eq_two.1 hxlength
      let n := output.elements * output.points
      refine ⟨table (2 * n) (complexWord ar op n x y), .complex op rfl (size_table _ _) fun i hi => ?_⟩
      rw [← complexWord_pair ar op x y hi, getD_table (by omega),
        getD_table (by omega)]
  | _ => cases h

/-- A point operation that has been synthesized leaves what it makes of its operands position by
position. -/
theorem run_of_elementwise {op : Operation} (hop : synthesize o inputs caps = .ok op)
    {xs : List (Array α)} {words output : Array α} (h : Elementwise ar o inputs xs words)
    {intermediates : List (Array α)} (haccepts : op.Accepts inputs xs output intermediates) :
    (op.run ar xs [output] intermediates).result = .ok () ∧
      (op.run ar xs [output] intermediates).outputs = [words] := by
  obtain ⟨t, p, s, houtput, hp, rfl, hpoint⟩ := synthesize_eq_ok hop
  cases h with
  | unary op =>
      obtain rfl : PointOp.unary op = p := Except.ok.inj hp
      exact hpoint.run_map houtput hp (by simp) (fun _ _ => rfl) haccepts
  | scale factor =>
      obtain rfl : PointOp.scale factor = p := Except.ok.inj hp
      exact hpoint.run_map houtput hp (by simp) (fun _ _ => rfl) haccepts
  | offset amount =>
      obtain rfl : PointOp.offset amount = p := Except.ok.inj hp
      exact hpoint.run_map houtput hp (by simp) (fun _ _ => rfl) haccepts
  | zipped op field tensor x y =>
      obtain rfl : PointOp.binary op = p := Except.ok.inj hp
      have hreal := (real_of_outputType houtput hp (by simp)).1
      have hsize : y.size = x.size := by
        obtain ⟨hx, hy⟩ : x.size = _ ∧ y.size = _ := by simpa using haccepts.inputs
        rw [hx, hy, FieldType.words_of_real (hreal.second _ rfl).1, FieldType.words_of_real hreal.real,
          FieldType.elements, FieldType.points, field, tensor]
        rfl
      rw [zipWith_eq_table _ hsize ar.zero ar.zero]
      refine hpoint.run_real (g := id) houtput hp (by simp) ?_ haccepts
      rintro second ⟨⟩ q e hq he
      exact secondIndex_of_sameShapes hreal field tensor hq he
  | broadcast op first point scalar x b =>
      obtain rfl : PointOp.binary op = p := Except.ok.inj hp
      have hreal := (real_of_outputType houtput hp (by simp)).1
      rw [map_eq_table _ x ar.zero]
      refine hpoint.run_real (g := fun _ => 0) houtput hp (by simp) ?_ haccepts
      rintro second ⟨⟩ q e hq he
      exact secondIndex_of_single hreal point scalar hq he
  | @complex op t n elements x y words size parts =>
      obtain rfl : PointOp.complex op = p := Except.ok.inj hp
      obtain ⟨heq, hcomplex⟩ := complex_of_outputType houtput
      obtain ⟨rfl, -⟩ := List.cons.inj heq
      rw [eq_table_complexWord size parts]
      exact hpoint.run_complex hcomplex (hpoint.total houtput hp) elements haccepts

end Synthesis.Pointwise

theorem Synthesis.synthesize_pointwise {o : Opcode} {inputs : List FieldType} {output : FieldType}
    (h : Pointwise.outputType o inputs = .ok output) (caps : Capabilities) :
    synthesize o inputs caps = Pointwise.synthesize o inputs caps := by
  cases o with
  | unary _ | scale _ | offset _ | binary _ | complexBinary _ => exact synthesize_built rfl
  | _ => cases h

/-- A point operation is synthesized for all operands of the types that it accepts, if their words have
addresses. There are words that it can be applied to position by position, and it leaves them, on every
device, over any arithmetic, and whether its operands hold numbers or pixels. -/
theorem pointwise_eq_elementwise {o : Opcode} {inputs : List FieldType} {output : FieldType}
    (h : Synthesis.Pointwise.outputType o inputs = .ok output) (caps : Capabilities) :
    ((∀ t ∈ inputs, t.words < signedBound) →
      ∃ op, Synthesis.synthesize o inputs caps = .ok op) ∧
    ∀ op, Synthesis.synthesize o inputs caps = .ok op →
      op.output = output ∧ op.intermediates = [] ∧
      ∀ {α : Type} (ar : Arithmetic α) {xs : List (Array α)} {y : Array α}
        {intermediates : List (Array α)}, op.Accepts inputs xs y intermediates →
        (op.run ar xs [y] intermediates).result = .ok () ∧
          (∃ words, Elementwise ar o inputs xs words) ∧
          ∀ words, Elementwise ar o inputs xs words →
            (op.run ar xs [y] intermediates).outputs = [words] := by
  rw [Synthesis.synthesize_pointwise h]
  refine ⟨fun hsmall => (Synthesis.Pointwise.shortage h fun _ => hsmall).exists_ok, fun op hop => ?_⟩
  obtain ⟨_, _, _, houtput, -, hsingle, -⟩ := Synthesis.Pointwise.synthesize_eq_ok hop
  obtain rfl := Except.ok.inj (h.symm.trans houtput)
  refine ⟨by rw [hsingle]; rfl, by rw [hsingle]; rfl, ?_⟩
  intro α ar xs y intermediates haccepts
  obtain ⟨words, hwords⟩ := Synthesis.Pointwise.exists_elementwise h ar haccepts.inputs
  exact ⟨(Synthesis.Pointwise.run_of_elementwise hop hwords haccepts).1, ⟨words, hwords⟩,
    fun _ hwords => (Synthesis.Pointwise.run_of_elementwise hop hwords haccepts).2⟩

/-- A number is subtracted from six pixels. -/
theorem pointwise_eq_elementwise_pixels : ∃ op : Operation,
    Synthesis.synthesize (.binary .subtract) [.twoByThreePixels, .number] ⟨4096, 8, 1, 65536⟩ =
        .ok op ∧
      (op.run .integers [#[1, 2, 3, 4, 5, 6], #[10]] [Array.replicate 6 0] []).outputs =
        [#[-9, -8, -7, -6, -5, -4]] := by
  obtain ⟨output, houtput, hsize⟩ : ∃ output : FieldType,
      Synthesis.Pointwise.outputType (.binary .subtract) [.twoByThreePixels, .number] = .ok output ∧
        output.words = 6 := ⟨_, rfl, rfl⟩
  obtain ⟨hexists, hsynthesized⟩ := pointwise_eq_elementwise houtput ⟨4096, 8, 1, 65536⟩
  obtain ⟨op, hop⟩ := hexists (by decide)
  obtain ⟨hopOutput, hinter, hrun⟩ := hsynthesized op hop
  have haccepts : op.Accepts [.twoByThreePixels, .number] [#[(1 : ℤ), 2, 3, 4, 5, 6], #[10]]
      (Array.replicate 6 0) [] := ⟨rfl, by rw [hopOutput, hsize]; rfl, by rw [hinter]; rfl⟩
  obtain ⟨-, -, houtputs⟩ := hrun .integers haccepts
  have hwords := houtputs _
    (.broadcast .subtract .twoByThreePixels rfl rfl #[(1 : ℤ), 2, 3, 4, 5, 6] 10)
  exact ⟨op, hop, hwords.trans (by simp [BinaryOp.apply, Arithmetic.integers])⟩

end FieldCircuit
