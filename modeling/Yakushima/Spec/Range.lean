import Yakushima.Spec.Map

/-! # The interval of a scan

Keys are ordered byte by byte, and a proper prefix comes before. A scan gives out the bindings of an interval in this
order; what it leaves out and where a limit stops it depends on the slices of the keys. -/

namespace Yakushima

/-- The key is not left of the interval. -/
def ScanArgs.InLeft (args : ScanArgs) (key : Key) : Prop :=
  match args.lEnd with
  | .inf => True
  | .inclusive => args.lKey ≤ key
  | .exclusive => args.lKey < key

/-- The key is not right of the interval. -/
def ScanArgs.InRight (args : ScanArgs) (key : Key) : Prop :=
  match args.rEnd with
  | .inf => True
  | .inclusive => key ≤ args.rKey
  | .exclusive => key < args.rKey

def ScanArgs.Contains (args : ScanArgs) (key : Key) : Prop := args.InLeft key ∧ args.InRight key

/-- The intervals that `scan` answers with `ERR_BAD_USAGE`. -/
def ScanArgs.Rejected (args : ScanArgs) : Prop := args.lKey = args.rKey ∧ (args.lEnd = .exclusive ∨ args.rEnd = .exclusive)

instance (args : ScanArgs) (key : Key) : Decidable (args.InLeft key) :=
  match args with
  | ⟨_, .inf, _, _, _, _⟩ => .isTrue trivial
  | ⟨lKey, .inclusive, _, _, _, _⟩ => inferInstanceAs (Decidable (lKey ≤ key))
  | ⟨lKey, .exclusive, _, _, _, _⟩ => inferInstanceAs (Decidable (lKey < key))

instance (args : ScanArgs) (key : Key) : Decidable (args.InRight key) :=
  match args with
  | ⟨_, _, _, .inf, _, _⟩ => .isTrue trivial
  | ⟨_, _, rKey, .inclusive, _, _⟩ => inferInstanceAs (Decidable (key ≤ rKey))
  | ⟨_, _, rKey, .exclusive, _, _⟩ => inferInstanceAs (Decidable (key < rKey))

instance (args : ScanArgs) (key : Key) : Decidable (args.Contains key) := inferInstanceAs (Decidable (_ ∧ _))

instance (args : ScanArgs) : Decidable args.Rejected := inferInstanceAs (Decidable (_ ∧ _))

/-- A tuple of a scan. -/
abbrev Hit := Key × ValuePtr × Nat

/-- The bindings of an interval as tuples, in order; `len` is the length that is given out for a value. -/
structure Bindings (len : ValueArg → Nat) (m : MapState) (args : ScanArgs) (L : List Hit) : Prop where
  sorted : (L.map (·.1)).Pairwise (· < ·)
  mem_iff : ∀ k v n, (k, v, n) ∈ L ↔ args.Contains k ∧ ∃ b, m.map.lookup k = some b ∧ b.ptr = v ∧ len b.value = n

/-- The bytes of the slices before the last one: the prefix of the layer that the key has its value in. -/
def layerPrefix (k : Key) : Key := k.take (8 * ((k.length - 1) / 8))

/-- The tuples after the first `i` are in the layer of the `i`-th or below it. -/
def Confined (L : List Hit) (i : Nat) : Prop := ∀ x, L[i - 1]? = some x → ∀ y ∈ L.drop i, layerPrefix x.1 <+: y.1

/-- The tuples that a scan gives out when `hidden` and then `shown` are those of its interval. Without a left end keys
    below the left key may be hidden. A limit cuts the rest off if it is in the layer of the last allowed tuple; else
    tuples of the layers above may follow. -/
structure GivenOut (args : ScanArgs) (hidden shown given : List Hit) : Prop where
  hidden : ∀ x ∈ hidden, args.lEnd = .inf ∧ x.1 < args.lKey
  sub : given.Sublist shown
  all : args.maxSize = 0 → given = shown
  first : args.maxSize ≠ 0 → shown.take args.maxSize <+: given
  limit : args.maxSize ≠ 0 → (given = shown.take args.maxSize ↔ Confined shown args.maxSize)

end Yakushima
