/-!
# Types

The types whose values can be written. A scalar type is written as one scalar
value; the other types are built from scalars by sequences, tables, options,
pointers and declared aggregates. `Ty` is a plain tree, so that the rules of the
format can be defined by cases on it, and equality of types is decidable, since
the registry looks types up.
-/

namespace ObjectStream

/-- The width of an integer type. The native width is 64 bits. -/
inductive IntWidth
  | w8 | w16 | w32 | w64 | native
  deriving DecidableEq, Repr

def IntWidth.bits : IntWidth → Nat
  | .w8 => 8
  | .w16 => 16
  | .w32 => 32
  | .w64 => 64
  | .native => 64

/-- The types that are written as one scalar value. -/
inductive Scalar
  | bool
  | unsigned (width : IntWidth)
  | signed (width : IntWidth)
  | char
  | float32
  | float64
  /-- Owned text. -/
  | string
  /-- Text kept inline when it is short. -/
  | smallString
  /-- Borrowed text, which stands behind a reference. -/
  | str
  /-- Immutable raw bytes. -/
  | bytes
  /-- Growable raw bytes. -/
  | bytesMut
  /-- A span of time. -/
  | duration
  /-- An instant of the system clock. -/
  | systemTime
  /-- An instant of the calendar. -/
  | dateTime
  | uuid
  | typeTag
  deriving DecidableEq, Repr

inductive SeqKind
  | vector
  | deque
  | linked
  /-- A borrowed run of elements, which stands behind a reference. -/
  | slice
  deriving DecidableEq, Repr

/-- The kinds of set and map: by the order of their keys, by hash in two variants, and by first
insertion. -/
inductive TableKind
  | ordered
  | hashed
  | fastHashed
  | indexed
  deriving DecidableEq, Repr

inductive Ty
  | scalar (s : Scalar)
  | errorCode
  | tuple (parts : List Ty)
  | array (element : Ty) (count : Nat)
  | seq (kind : SeqKind) (element : Ty)
  | set (kind : TableKind) (key : Ty)
  | map (kind : TableKind) (key value : Ty)
  | option (inner : Ty)
  /-- A pointer to an object that several pointers may share. -/
  | shared (pointee : Ty)
  /-- A pointer that owns its object. -/
  | unique (pointee : Ty)
  /-- A reference, which is written as what it refers to. -/
  | ref (target : Ty)
  /-- The objects of an interface; they exist behind pointers only. -/
  | dyn (name : String)
  /-- A declared type with its arguments. -/
  | named (name : String) (arguments : List Ty)
  /-- A parameter of a declared type. -/
  | param (name : String)
  deriving Inhabited

namespace Ty

abbrev bool : Ty := .scalar .bool
abbrev u8 : Ty := .scalar (.unsigned .w8)
abbrev u16 : Ty := .scalar (.unsigned .w16)
abbrev u32 : Ty := .scalar (.unsigned .w32)
abbrev u64 : Ty := .scalar (.unsigned .w64)
abbrev usize : Ty := .scalar (.unsigned .native)
abbrev i8 : Ty := .scalar (.signed .w8)
abbrev i16 : Ty := .scalar (.signed .w16)
abbrev i32 : Ty := .scalar (.signed .w32)
abbrev i64 : Ty := .scalar (.signed .w64)
abbrev isize : Ty := .scalar (.signed .native)
abbrev char : Ty := .scalar .char
abbrev f32 : Ty := .scalar .float32
abbrev f64 : Ty := .scalar .float64
abbrev string : Ty := .scalar .string
abbrev bytes : Ty := .scalar .bytes
abbrev unit : Ty := .tuple []
abbrev vec (element : Ty) : Ty := .seq .vector element

/-! ## Equality -/

mutual

def beq : Ty → Ty → Bool
  | .scalar a, .scalar b => a == b
  | .errorCode, .errorCode => true
  | .tuple as, .tuple bs => beqList as bs
  | .array a m, .array b n => beq a b && m == n
  | .seq k a, .seq l b => k == l && beq a b
  | .set k a, .set l b => k == l && beq a b
  | .map k a c, .map l b d => k == l && beq a b && beq c d
  | .option a, .option b => beq a b
  | .shared a, .shared b => beq a b
  | .unique a, .unique b => beq a b
  | .ref a, .ref b => beq a b
  | .dyn m, .dyn n => m == n
  | .named m as, .named n bs => m == n && beqList as bs
  | .param m, .param n => m == n
  | _, _ => false

def beqList : List Ty → List Ty → Bool
  | [], [] => true
  | a :: as, b :: bs => beq a b && beqList as bs
  | _, _ => false

end

mutual

theorem beq_self (a : Ty) : beq a a = true := by
  cases a with
  | tuple as => simpa [beq] using beqList_self as
  | named n as => simpa [beq] using beqList_self as
  | array a n => simpa [beq] using beq_self a
  | seq k a => simpa [beq] using beq_self a
  | set k a => simpa [beq] using beq_self a
  | map k a b => simpa [beq] using ⟨beq_self a, beq_self b⟩
  | option a => simpa [beq] using beq_self a
  | shared a => simpa [beq] using beq_self a
  | unique a => simpa [beq] using beq_self a
  | ref a => simpa [beq] using beq_self a
  | _ => simp [beq]

theorem beqList_self (as : List Ty) : beqList as as = true := by
  cases as with
  | nil => simp [beqList]
  | cons a as => simpa [beqList] using ⟨beq_self a, beqList_self as⟩

end

mutual

theorem eq_of_beq {a b : Ty} (h : beq a b = true) : a = b := by
  cases a <;> cases b <;> simp only [beq, Bool.and_eq_true, beq_iff_eq, Bool.false_eq_true] at h
  case scalar.scalar => rw [h]
  case errorCode.errorCode => rfl
  case tuple.tuple as bs => rw [eq_of_beqList h]
  case array.array => rw [eq_of_beq h.1, h.2]
  case seq.seq => rw [h.1, eq_of_beq h.2]
  case set.set => rw [h.1, eq_of_beq h.2]
  case map.map => rw [h.1.1, eq_of_beq h.1.2, eq_of_beq h.2]
  case option.option => rw [eq_of_beq h]
  case shared.shared => rw [eq_of_beq h]
  case unique.unique => rw [eq_of_beq h]
  case ref.ref => rw [eq_of_beq h]
  case dyn.dyn => rw [h]
  case named.named => rw [h.1, eq_of_beqList h.2]
  case param.param => rw [h]

theorem eq_of_beqList {as bs : List Ty} (h : beqList as bs = true) : as = bs := by
  cases as <;> cases bs <;> simp only [beqList, Bool.and_eq_true, Bool.false_eq_true] at h
  case nil.nil => rfl
  case cons.cons => rw [eq_of_beq h.1, eq_of_beqList h.2]

end

instance : DecidableEq Ty := fun a b =>
  if h : beq a b = true then .isTrue (eq_of_beq h)
  else .isFalse fun e => h (e ▸ beq_self a)

/-! ## Shape -/

/-- The type behind the outer references. -/
def deref : Ty → Ty
  | .ref t => deref t
  | t => t

def isOption : Ty → Bool
  | .option _ => true
  | _ => false

/-- Whether the type is a pointer. A reference to a pointer is none. -/
def isPointer : Ty → Bool
  | .shared _ | .unique _ => true
  | _ => false

/-! ## Parameters -/

mutual

/-- Puts arguments in place of parameters. A parameter without an argument stays. -/
def subst (σ : List (String × Ty)) : Ty → Ty
  | .tuple parts => .tuple (substList σ parts)
  | .array t n => .array (subst σ t) n
  | .seq k t => .seq k (subst σ t)
  | .set k t => .set k (subst σ t)
  | .map k t u => .map k (subst σ t) (subst σ u)
  | .option t => .option (subst σ t)
  | .shared t => .shared (subst σ t)
  | .unique t => .unique (subst σ t)
  | .ref t => .ref (subst σ t)
  | .named n arguments => .named n (substList σ arguments)
  | .param n => (σ.lookup n).getD (.param n)
  | t => t

def substList (σ : List (String × Ty)) : List Ty → List Ty
  | [] => []
  | t :: ts => subst σ t :: substList σ ts

end

end Ty

end ObjectStream
