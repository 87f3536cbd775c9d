import LazyGraph.Primitive.Execute

/-! What becomes of an operation, for every list of operands.

Each operation asks for operands of one kind and promises a result of one kind. The count of
the operands is checked first, then their kinds from left to right, then what the operation
itself cannot do; whatever passes gives a result of the kind promised. -/

set_option autoImplicit false

namespace LazyGraph.Primitive

/-! ### What an operation asks and promises -/

/-- The node is an operand of the kind. A host object is one only if it is a string. -/
def Kind.Fits : Kind → Node → Prop
  | .int, node => node.tag = .int
  | .double, node => node.tag = .double
  | .char, node => node.tag = .char
  | .text, node => ∃ value, node = .text value

inductive Yield where
  | int
  | double
  | char
  | text
  | truth
  deriving DecidableEq, Repr

def Yield.Describes : Yield → Node → Prop
  | .int, node => node.tag = .int
  | .double, node => node.tag = .double
  | .char, node => node.tag = .char
  | .text, node => ∃ value, node = .text value
  | .truth, node => ∃ value, node = .bool value

def signature : Primitive → Kind × Yield
  | .intAdd | .intSub | .intMul | .intDiv | .intRem | .intNeg => (.int, .int)
  | .doubleAdd | .doubleSub | .doubleMul | .doubleDiv | .doubleNeg => (.double, .double)
  | .intEq | .intLt | .intLe => (.int, .truth)
  | .doubleEq | .doubleLt | .doubleLe => (.double, .truth)
  | .charEq | .charLt => (.char, .truth)
  | .textEq => (.text, .truth)
  | .charToInt => (.char, .int)
  | .intToChar => (.int, .char)
  | .intToDouble => (.int, .double)
  | .doubleToInt => (.double, .int)
  | .textAppend => (.text, .text)
  | .textLength => (.text, .int)

abbrev asks (op : Primitive) : Kind := op.signature.1

abbrev gives (op : Primitive) : Yield := op.signature.2

/-- The number is a Unicode scalar value: a code point that is no surrogate. -/
def IsScalarValue (code : Int) : Prop :=
  (0 ≤ code ∧ code < 0xD800) ∨ (0xDFFF < code ∧ code ≤ 0x10FFFF)

/-- The operation has no result for these operands, although they are of its kind. -/
def Fails : Primitive → List Node → Prop
  | .intDiv, operands | .intRem, operands => ∃ dividend, operands = [dividend, .int 0]
  | .intToChar, operands => ∃ code, operands = [.int code] ∧ ¬ IsScalarValue code.toInt
  | _, _ => False

/-! ### Operands -/

variable {op : Primitive} {kind : Kind} {node : Node} {operands : List Node}

theorem read?_isSome : (kind.read? node).isSome ↔ kind.Fits node := by
  cases kind with
  | int | double | char => cases node <;> simp [Kind.read?, Kind.Fits, Node.tag]
  | text =>
    cases node with
    | object value => cases value <;> simp [Kind.read?, Kind.Fits, Node.text]
    | _ => simp [Kind.read?, Kind.Fits, Node.text]

theorem operand_fits (fits : kind.Fits node) : ∃ value, kind.read? node = some value ∧ kind.operand op node = .ok value := by
  obtain ⟨value, read⟩ := Option.isSome_iff_exists.mp (read?_isSome.mpr fits)
  exact ⟨value, read, by rw [Kind.operand, read]⟩

theorem operand_unfit (unfit : ¬ kind.Fits node) :
    kind.operand op node = .error (.typeMismatch op.name kind.expected node.tag) := by
  have unread : kind.read? node = none := by simpa using mt read?_isSome.mp unfit
  rw [Kind.operand, unread]

theorem read?_int {value : Int64} (read : Kind.int.read? node = some value) : node = .int value := by
  cases node <;> cases read
  rfl

/-! ### Operations -/

-- The operation reads what it asks for; then it fails as it may, or gives what it promises.
def Computes (op : Primitive) (operands : List Node) (computed : Except Failure Node) : Prop :=
  (op.Fails operands ∧ ∃ failure, computed = .error failure) ∨
    (¬ op.Fails operands ∧ ∃ result, computed = .ok result ∧ op.gives.Describes result)

def Operation.Keeps (op : Primitive) : Operation → Prop
  | .unary kind compute => kind = op.asks ∧ ∀ a value, kind.read? a = some value → op.Computes [a] (compute value)
  | .binary kind compute =>
    kind = op.asks ∧ ∀ a b left right, kind.read? a = some left → kind.read? b = some right →
      op.Computes [a, b] (compute left right)

theorem isValidChar_iff {code : Int} : (0 ≤ code ∧ code.toNat.isValidChar) ↔ IsScalarValue code := by
  unfold IsScalarValue Nat.isValidChar
  omega

theorem charOfCode?_eq_some_iff {code : Int64} {c : Char} : charOfCode? code = some c ↔ code = Int64.ofNat c.toNat := by
  have below : c.toNat < 2 ^ 63 := Nat.lt_trans c.val.toNat_lt (by decide)
  unfold charOfCode?
  constructor
  · intro read
    split at read
    · rename_i valid
      cases read
      have same : (Char.ofNat code.toInt.toNat).toNat = code.toInt.toNat := by
        rw [Char.ofNat, dif_pos valid.2]
        rfl
      rw [same, ← Int64.ofInt_eq_ofNat, Int.toNat_of_nonneg valid.1, Int64.ofInt_toInt]
    · cases read
  · rintro rfl
    rw [Int64.toInt_ofNat_of_lt below, if_pos ⟨Int.natCast_nonneg _, c.valid⟩]
    exact congrArg some c.ofNat_toNat

theorem charOfCode?_isSome {code : Int64} : (charOfCode? code).isSome ↔ IsScalarValue code.toInt := by
  rw [← isValidChar_iff]
  unfold charOfCode?
  split
  · rename_i valid
    exact iff_of_true rfl valid
  · rename_i invalid
    exact iff_of_false Bool.false_ne_true invalid

theorem computes_quotient (isDivision : op = .intDiv ∨ op = .intRem) {a b : Node} {right result : Int64}
    (readRight : Kind.int.read? b = some right) :
    op.Computes [a, b] (if right = 0 then .error (.divisionByZero op) else .ok (.int result)) := by
  obtain rfl := read?_int readRight
  have fails : op.Fails [a, .int right] ↔ right = 0 := by
    rcases isDivision with rfl | rfl <;> simp [Fails]
  have gives : op.gives = .int := by
    rcases isDivision with rfl | rfl <;> rfl
  by_cases isZero : right = 0
  · exact .inl ⟨fails.mpr isZero, _, if_pos isZero⟩
  · exact .inr ⟨mt fails.mp isZero, _, if_neg isZero, by rw [gives]; rfl⟩

theorem operation_keeps (op : Primitive) : op.operation.Keeps op := by
  cases op with
  | intDiv => exact ⟨rfl, fun a b left right _ read => computes_quotient (.inl rfl) read⟩
  | intRem => exact ⟨rfl, fun a b left right _ read => computes_quotient (.inr rfl) read⟩
  | intToChar =>
    refine ⟨rfl, fun a code read => ?_⟩
    obtain rfl := read?_int read
    have fails : Fails .intToChar [.int code] ↔ ¬ IsScalarValue code.toInt := by simp [Fails]
    rw [← charOfCode?_isSome] at fails
    unfold Computes
    rw [fails]
    cases found : charOfCode? code with
    | none => exact .inl ⟨by simp, .notCodePoint .intToChar code, by simp only [found]⟩
    | some c => exact .inr ⟨by simp, .char c, by simp only [found], rfl⟩
  | intEq | intLt | intLe | doubleEq | doubleLt | doubleLe | charEq | charLt | textEq =>
    exact ⟨rfl, fun _ _ _ _ _ _ => .inr ⟨id, _, rfl, _, rfl⟩⟩
  | textAppend => exact ⟨rfl, fun _ _ _ _ _ _ => .inr ⟨id, _, rfl, _, rfl⟩⟩
  | intNeg | doubleNeg | charToInt | intToDouble | doubleToInt | textLength =>
    exact ⟨rfl, fun _ _ _ => .inr ⟨id, _, rfl, rfl⟩⟩
  | intAdd | intSub | intMul | doubleAdd | doubleSub | doubleMul | doubleDiv =>
    exact ⟨rfl, fun _ _ _ _ _ _ => .inr ⟨id, _, rfl, rfl⟩⟩

/-! ### Executions -/

/-- Operands of the right kind are read, and the operation does what it does. -/
theorem execute_computes (counted : operands.length = op.arity) (fit : ∀ node ∈ operands, op.asks.Fits node) :
    ∃ computed, op.execute operands = computed.mapError Fault.failed ∧ op.Computes operands computed := by
  have keeps := operation_keeps op
  rw [← arity_operation] at counted
  unfold execute
  generalize op.operation = operation at keeps counted
  cases operation with
  | unary kind compute =>
    obtain ⟨a, rfl⟩ := List.length_eq_one_iff.mp counted
    obtain ⟨rfl, each⟩ := keeps
    obtain ⟨value, read, checked⟩ := @operand_fits op _ _ (fit a (.head _))
    exact ⟨compute value, by simp only [checked, bind, Except.bind], each a value read⟩
  | binary kind compute =>
    obtain ⟨a, b, rfl⟩ : ∃ a b, operands = [a, b] := by
      match operands, counted with
      | [a, b], _ => exact ⟨a, b, rfl⟩
    obtain ⟨rfl, each⟩ := keeps
    obtain ⟨left, read, checked⟩ := @operand_fits op _ _ (fit a (.head _))
    obtain ⟨right, read', checked'⟩ := @operand_fits op _ _ (fit b (.tail _ (.head _)))
    exact ⟨compute left right, by simp only [checked, checked', bind, Except.bind], each a b left right read read'⟩

theorem execute_mismatch {before after : List Node} (counted : (before ++ node :: after).length = op.arity)
    (fit : ∀ operand ∈ before, op.asks.Fits operand) (unfit : ¬ op.asks.Fits node) :
    op.execute (before ++ node :: after) = .error (.typeMismatch op.name op.asks.expected node.tag) := by
  have keeps := operation_keeps op
  rw [← arity_operation] at counted
  unfold execute
  generalize op.operation = operation at keeps counted
  cases operation with
  | unary kind compute =>
    obtain ⟨rfl, _⟩ := keeps
    have none : before = [] ∧ after = [] := by
      simp only [List.length_append, List.length_cons, Operation.arity] at counted
      exact ⟨List.length_eq_zero_iff.mp (by omega), List.length_eq_zero_iff.mp (by omega)⟩
    obtain ⟨rfl, rfl⟩ := none
    simp only [List.nil_append, operand_unfit unfit, bind, Except.bind]
  | binary kind compute =>
    obtain ⟨rfl, _⟩ := keeps
    have one : before.length + after.length = 1 := by
      simp only [List.length_append, List.length_cons, Operation.arity] at counted
      omega
    rcases before with _ | ⟨a, before⟩
    · obtain ⟨b, rfl⟩ := List.length_eq_one_iff.mp ((Nat.zero_add _).symm.trans one)
      simp only [List.nil_append, operand_unfit unfit, bind, Except.bind]
    · have none : before = [] ∧ after = [] := by
        simp only [List.length_cons] at one
        exact ⟨List.length_eq_zero_iff.mp (by omega), List.length_eq_zero_iff.mp (by omega)⟩
      obtain ⟨rfl, rfl⟩ := none
      obtain ⟨left, _, checked⟩ := @operand_fits op _ _ (fit a (.head _))
      simp only [List.singleton_append, checked, operand_unfit unfit, bind, Except.bind]

theorem execute_miscounted (miscounted : operands.length ≠ op.arity) :
    op.execute operands = .error (.malformed (.operandCount op operands.length)) := by
  rw [← arity_operation] at miscounted
  unfold execute
  generalize op.operation = operation at miscounted
  split
  · exact absurd rfl miscounted
  · exact absurd rfl miscounted
  · rfl

theorem exists_first_unfit (unfit : ∃ node ∈ operands, ¬ kind.Fits node) :
    ∃ before node after, operands = before ++ node :: after ∧ (∀ operand ∈ before, kind.Fits operand) ∧ ¬ kind.Fits node := by
  induction operands with
  | nil =>
    obtain ⟨_, member, _⟩ := unfit
    cases member
  | cons head rest ih =>
    by_cases fits : kind.Fits head
    · have later : ∃ node ∈ rest, ¬ kind.Fits node := by
        obtain ⟨node, member, unfit⟩ := unfit
        refine ⟨node, (List.mem_cons.mp member).resolve_left ?_, unfit⟩
        rintro rfl
        exact unfit fits
      obtain ⟨before, node, after, rfl, fit, unfit⟩ := ih later
      refine ⟨head :: before, node, after, rfl, ?_, unfit⟩
      intro operand member
      rcases List.mem_cons.mp member with rfl | member
      · exact fits
      · exact fit operand member
    · exact ⟨[], head, rest, rfl, fun operand member => absurd member List.not_mem_nil, fits⟩

theorem Yield.Describes.whnf {yield : Yield} (describes : yield.Describes node) : node.tag.isWhnf := by
  cases yield with
  | int | double | char =>
    rw [show node.tag = _ from describes]
    rfl
  | text =>
    obtain ⟨value, rfl⟩ := describes
    rfl
  | truth =>
    obtain ⟨value, rfl⟩ := describes
    cases value <;> rfl

inductive Ends (op : Primitive) (operands : List Node) : Prop where
  | miscounted (miscounted : operands.length ≠ op.arity)
      (executed : op.execute operands = .error (.malformed (.operandCount op operands.length)))
  | mismatched (counted : operands.length = op.arity) (unfit : ¬ ∀ node ∈ operands, op.asks.Fits node)
      {found : Tag} (executed : op.execute operands = .error (.typeMismatch op.name op.asks.expected found))
  | failed (counted : operands.length = op.arity) (fit : ∀ node ∈ operands, op.asks.Fits node)
      (fails : op.Fails operands) {failure : Failure} (executed : op.execute operands = .error (.failed failure))
  | given (counted : operands.length = op.arity) (fit : ∀ node ∈ operands, op.asks.Fits node)
      (succeeds : ¬ op.Fails operands) {result : Node} (executed : op.execute operands = .ok result)
      (describes : op.gives.Describes result)

theorem execute_ends (op : Primitive) (operands : List Node) : op.Ends operands := by
  by_cases counted : operands.length = op.arity
  · by_cases fit : ∀ node ∈ operands, op.asks.Fits node
    · obtain ⟨computed, executed, ⟨fails, failure, rfl⟩ | ⟨succeeds, result, rfl, describes⟩⟩ :=
        execute_computes counted fit
      · exact .failed counted fit fails executed
      · exact .given counted fit succeeds executed describes
    · have unfit : ∃ node ∈ operands, ¬ op.asks.Fits node := by simpa using fit
      obtain ⟨before, node, after, rfl, fit', unfit⟩ := exists_first_unfit unfit
      exact .mismatched counted fit (execute_mismatch counted fit' unfit)
  · exact .miscounted counted (execute_miscounted counted)

theorem malformed_iff (op : Primitive) (operands : List Node) :
    (∃ defect, op.execute operands = .error (.malformed defect)) ↔ operands.length ≠ op.arity := by
  cases execute_ends op operands <;> simp_all

theorem typeMismatch_iff (op : Primitive) (operands : List Node) :
    (∃ operation expected found, op.execute operands = .error (.typeMismatch operation expected found)) ↔
      operands.length = op.arity ∧ ∃ node ∈ operands, ¬ op.asks.Fits node := by
  cases execute_ends op operands <;> simp_all

theorem failed_iff (op : Primitive) (operands : List Node) :
    (∃ failure, op.execute operands = .error (.failed failure)) ↔
      operands.length = op.arity ∧ (∀ node ∈ operands, op.asks.Fits node) ∧ op.Fails operands := by
  cases execute_ends op operands with
  | mismatched counted unfit executed => exact iff_of_false (by simp [executed]) fun right => unfit right.2.1
  | _ => simp_all

theorem ok_iff (op : Primitive) (operands : List Node) :
    (∃ result, op.execute operands = .ok result) ↔
      operands.length = op.arity ∧ (∀ node ∈ operands, op.asks.Fits node) ∧ ¬ op.Fails operands := by
  cases execute_ends op operands with
  | mismatched counted unfit executed => exact iff_of_false (by simp [executed]) fun right => unfit right.2.1
  | _ => simp_all

theorem execute_describes {result : Node} (executed : op.execute operands = .ok result) : op.gives.Describes result := by
  cases execute_ends op operands <;> simp_all

/-! ### Characters and texts -/

theorem intToChar_iff {code : Int64} {c : Char} :
    execute .intToChar [.int code] = .ok (.char c) ↔ code = Int64.ofNat c.toNat := by
  rw [← charOfCode?_eq_some_iff]
  cases found : charOfCode? code with
  | none =>
    have refused : execute .intToChar [.int code] = .error (.failed (.notCodePoint .intToChar code)) := by
      simp only [execute, operation, Kind.operand, Kind.read?, found, bind, Except.bind]
      rfl
    simp [refused]
  | some scalar =>
    have given : execute .intToChar [.int code] = .ok (.char scalar) := by
      simp only [execute, operation, Kind.operand, Kind.read?, found, bind, Except.bind]
      rfl
    simp [given]

theorem charToInt_iff {code : Int64} {c : Char} :
    execute .charToInt [.char c] = .ok (.int code) ↔ code = Int64.ofNat c.toNat := by
  have executed : execute .charToInt [.char c] = .ok (.int (Int64.ofNat c.toNat)) := rfl
  rw [executed, Except.ok.injEq, Node.int.injEq, eq_comm]

theorem execute_textLength (value : String) :
    execute .textLength [.text value] = .ok (.int (Int64.ofNat value.length)) := rfl

/-- For every operation and every list of operands: another number of operands than the arity is
malformed; with the right number, some operand that is not of the kind the operation asks for is a
type mismatch, in the operation's own name and with the tag of the leftmost such operand; with
right operands, a division by zero or a number that is no scalar value fails; and otherwise there
is an evaluated result of the kind the operation promises. Characters and their code points are
turned into each other, and a text has as many characters as the two it was joined from. -/
theorem execute_classified :
    (∀ (op : Primitive) (operands : List Node),
      ((∃ defect, op.execute operands = .error (.malformed defect)) ↔ operands.length ≠ op.arity) ∧
      ((∃ operation expected found, op.execute operands = .error (.typeMismatch operation expected found)) ↔
        operands.length = op.arity ∧ ∃ node ∈ operands, ¬ op.asks.Fits node) ∧
      (∀ before node after, operands = before ++ node :: after → operands.length = op.arity →
        (∀ operand ∈ before, op.asks.Fits operand) → ¬ op.asks.Fits node →
        op.execute operands = .error (.typeMismatch op.name op.asks.expected node.tag)) ∧
      ((∃ failure, op.execute operands = .error (.failed failure)) ↔
        operands.length = op.arity ∧ (∀ node ∈ operands, op.asks.Fits node) ∧ op.Fails operands) ∧
      ((∃ result, op.execute operands = .ok result) ↔
        operands.length = op.arity ∧ (∀ node ∈ operands, op.asks.Fits node) ∧ ¬ op.Fails operands) ∧
      ∀ result, op.execute operands = .ok result → result.tag.isWhnf ∧ op.gives.Describes result) ∧
    (∀ code c, execute .intToChar [.int code] = .ok (.char c) ↔ execute .charToInt [.char c] = .ok (.int code)) ∧
    ∀ a b : String, ∃ joined n m, execute .textAppend [.text a, .text b] = .ok joined ∧
      execute .textLength [.text a] = .ok (.int n) ∧ execute .textLength [.text b] = .ok (.int m) ∧
      execute .textLength [joined] = .ok (.int (n + m)) ∧ n = Int64.ofNat a.length ∧ m = Int64.ofNat b.length := by
  refine ⟨fun op operands => ?_, fun code c => ?_, fun a b => ?_⟩
  · have mismatch : ∀ before node after, operands = before ++ node :: after → operands.length = op.arity →
        (∀ operand ∈ before, op.asks.Fits operand) → ¬ op.asks.Fits node →
        op.execute operands = .error (.typeMismatch op.name op.asks.expected node.tag) := by
      rintro before node after rfl counted fit unfit
      exact execute_mismatch counted fit unfit
    refine ⟨malformed_iff op operands, typeMismatch_iff op operands, mismatch, failed_iff op operands,
      ok_iff op operands, fun result executed => ?_⟩
    exact ⟨(execute_describes executed).whnf, execute_describes executed⟩
  · rw [intToChar_iff, charToInt_iff]
  · refine ⟨.text (a ++ b), _, _, rfl, execute_textLength a, execute_textLength b, ?_, rfl, rfl⟩
    rw [execute_textLength, String.length_append, Int64.ofNat_add]

end LazyGraph.Primitive
