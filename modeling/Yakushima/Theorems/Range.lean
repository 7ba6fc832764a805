import Yakushima.Theorems.Scan
import Yakushima.Spec.Range

/-! # The keys that a scan finds

A forest lists its keys in order. The scan of a layer appends the keys of the interval to the tuples; a limit
on their number stops the border that reaches it, but not the layers above. -/

namespace Yakushima
open M Permutation

/-! ### The keys of a forest in order -/

/-- The keys behind an entry of the layer at `π`. -/
def entryKeys (below : Path → List (Key × ValuePtr)) (π : Path) (e : Entry) : List (Key × ValuePtr) :=
  match e.content with
  | .value v => [(keyAt π e.key, v)]
  | .layer => below (e.key.slice :: π)

/-- The keys in the layer at a path and below it, with a bound on the layers. -/
def Forest.listing (A : Forest) : Nat → Path → List (Key × ValuePtr)
  | 0, _ => []
  | n + 1, π => match A π with
    | none => []
    | some t => t.entries.flatMap (entryKeys (A.listing n) π)

section
variable {s : State} {ti : TreeId} {A : Forest} {dead : NodeId → Prop} {π : Path} {t : BTree} {n : Nat} {e e' : Entry}
  {k k' : Key} {v v' : ValuePtr}

/-- The keys behind an entry begin with the bytes of the entry. -/
def Entry.Leads (π : Path) (e : Entry) (k : Key) : Prop :=
  ∃ x, k = pathBytes π ++ (e.key.bytes ++ x) ∧ (e.key.length ≤ 8 → x = []) ∧ (e.key.length = 9 → x ≠ [])

theorem Entry.Leads.lt (hk : e.Leads π k) (hk' : e'.Leads π k') (he : e.key.Encoded) (he' : e'.key.Encoded)
    (h : e.key.code < e'.key.code) :
    k < k' := by
  obtain ⟨x, rfl, hx, -⟩ := hk
  obtain ⟨y, rfl, -, hy⟩ := hk'
  rw [append_lt_append]
  exact KeyTuple.bytes_lt he he' h hx hy

theorem Holds.mem_listing (H : Holds s ti A dead) (h : (k, v) ∈ A.listing n π) : ∃ x, k = pathBytes π ++ x ∧
    (π ≠ [] → x ≠ []) := by
  induction n generalizing π with
  | zero => simp [Forest.listing] at h
  | succ n ih =>
    rw [Forest.listing] at h
    cases ht : A π with
    | none => simp [ht] at h
    | some t =>
      simp only [ht, List.mem_flatMap] at h
      obtain ⟨e, he, hk⟩ := h
      cases hc : e.content with
      | value w =>
        simp only [entryKeys, hc, List.mem_singleton, Prod.mk.injEq] at hk
        refine ⟨_, hk.1, fun hne hnil => ?_⟩
        have hlen := congrArg List.length hnil
        rw [List.length_take, e.key.slice.size, List.length_nil] at hlen
        cases π with
        | nil => exact hne rfl
        | cons sl π =>
          have := H.ok.positive ht e he
          omega
      | layer =>
        simp only [entryKeys, hc] at hk
        obtain ⟨x, rfl, hx⟩ := ih hk
        refine ⟨e.key.slice.bytes ++ x, by rw [pathBytes, List.append_assoc], fun _ hnil => ?_⟩
        exact hx (by simp) (List.append_eq_nil_iff.mp hnil).2

theorem Holds.leads (H : Holds s ti A dead) (ht : A π = some t) (he : e ∈ t.entries)
    (h : (k, v) ∈ entryKeys (A.listing n) π e) :
    e.Leads π k := by
  obtain ⟨henc, hlay⟩ := (H.layers ht).entry_ok he
  cases hc : e.content with
  | value w =>
    simp only [entryKeys, hc, List.mem_singleton, Prod.mk.injEq] at h
    refine ⟨[], ?_, fun _ => rfl, fun h9 => ?_⟩
    · rw [List.append_nil]
      exact h.1
    · rw [← hlay, hc] at h9
      simp at h9
  | layer =>
    simp only [entryKeys, hc] at h
    have h9 := hlay.mp hc
    obtain ⟨x, rfl, hx⟩ := H.mem_listing h
    refine ⟨x, ?_, fun h8 => by omega, fun _ => hx (by simp)⟩
    rw [pathBytes, KeyTuple.bytes_of_nine h9, List.append_assoc]

theorem LayerOk.codes {par : Ptr} {link : KeySlice → Ptr} (h : LayerOk s par link dead t) :
    (t.entries.map fun e => e.key.code).Pairwise (· < ·) := by
  have := h.entries_sorted
  rw [List.pairwise_map] at this ⊢
  refine this.imp fun {x y} hxy => ?_
  simp only [Entry.mark] at hxy
  omega

/-- The keys are listed in order. -/
theorem Holds.listing_sorted (H : Holds s ti A dead) : ((A.listing n π).map (·.1)).Pairwise (· < ·) := by
  induction n generalizing π with
  | zero => simp [Forest.listing]
  | succ n ih =>
    rw [Forest.listing]
    cases ht : A π with
    | none => simp
    | some t =>
      simp only
      rw [List.pairwise_map, List.pairwise_flatMap]
      refine ⟨fun e he => ?_, ?_⟩
      · cases hc : e.content with
        | value w => simp [entryKeys, hc]
        | layer =>
          simp only [entryKeys, hc]
          exact List.pairwise_map.mp ih
      · have hs := (H.layers ht).codes
        rw [List.pairwise_map] at hs
        refine hs.imp_of_mem fun {a b} ha hb hab p hp q hq => ?_
        exact (H.leads ht ha hp).lt (H.leads ht hb hq) ((H.layers ht).entry_ok ha).1 ((H.layers ht).entry_ok hb).1 hab

/-- The keys that are listed are bound. -/
theorem Holds.binds_of_listing (H : Holds s ti A dead) (h : (k, v) ∈ A.listing n π) : A.Binds k v := by
  induction n generalizing π with
  | zero => simp [Forest.listing] at h
  | succ n ih =>
    rw [Forest.listing] at h
    cases ht : A π with
    | none => simp [ht] at h
    | some t =>
      simp only [ht, List.mem_flatMap] at h
      obtain ⟨e, he, hk⟩ := h
      cases hc : e.content with
      | value w =>
        simp only [entryKeys, hc, List.mem_singleton, Prod.mk.injEq] at hk
        obtain ⟨rfl, rfl⟩ := hk
        exact H.binds_keyAt ⟨t, ht, he⟩ hc
      | layer =>
        simp only [entryKeys, hc] at hk
        exact ih hk

/-- Every key on whose way the layer is is listed there. -/
theorem Holds.listing_of_binds (H : Holds s ti A dead) (h : A.Binds k v) : ∀ (d : Nat) {j n : Nat},
    Yakushima.layers k = j + d → d < n →
    (k, v) ∈ A.listing n (layerPath [] k j) := by
  have hall : ∀ (d : Nat) {j : Nat}, Yakushima.layers k = j + d → ∃ t, A (layerPath [] k j) = some t := by
    intro d
    induction d with
    | zero =>
      intro j hj
      obtain ⟨t, ht, -⟩ := h
      rw [keyPath, hj] at ht
      exact ⟨t, ht⟩
    | succ d ih =>
      intro j hj
      obtain ⟨u, hu⟩ := ih (j := j + 1) (by omega)
      obtain ⟨t, ht, -⟩ := (H.ok.linked _ _).mp ⟨u, hu⟩
      exact ⟨t, ht⟩
  intro d
  induction d with
  | zero =>
    intro j n hj hn
    obtain ⟨n, rfl⟩ : ∃ m, n = m + 1 := ⟨n - 1, by omega⟩
    obtain ⟨t, ht, he⟩ := h
    have hjl : layerPath [] k j = keyPath k := by rw [keyPath, hj, Nat.add_zero]
    rw [hjl]
    simp only [Forest.listing, ht, List.mem_flatMap]
    refine ⟨_, he, ?_⟩
    simp only [entryKeys, List.mem_singleton, keyAt_place]
  | succ d ih =>
    intro j n hj hn
    obtain ⟨n, rfl⟩ : ∃ m, n = m + 1 := ⟨n - 1, by omega⟩
    obtain ⟨u, hu⟩ := hall d (j := j + 1) (by omega)
    obtain ⟨t, ht, e, he, hsl, hc⟩ := (H.ok.linked _ _).mp ⟨u, hu⟩
    have hk := ih (j := j + 1) (n := n) (by omega) (by omega)
    simp only [Forest.listing, ht, List.mem_flatMap]
    refine ⟨e, he, ?_⟩
    simp only [entryKeys, hc, hsl]
    exact hk

/-- The listing of a whole forest is its bindings. -/
theorem Holds.mem_listing_iff (H : Holds s ti A dead) {D : Nat} (hD : ∀ π t, A π = some t → π.length ≤ D) :
    (k, v) ∈ A.listing (D + 1) [] ↔ A.Binds k v := by
  refine ⟨H.binds_of_listing, fun h => ?_⟩
  have hle : Yakushima.layers k ≤ D := by
    obtain ⟨t, ht, -⟩ := h
    have := hD _ _ ht
    rwa [keyPath, layerPath_length, List.length_nil, Nat.zero_add] at this
  exact H.listing_of_binds h (Yakushima.layers k) (j := 0) (by omega) (by omega)

end

/-! ### A limit on the number of tuples -/

theorem layerPrefix_eq (k : Key) : layerPrefix k = k.take (8 * layers k) := rfl

/-- The tuples `R` that a scan with the limit `m` appends to `a` tuples, when the hits are `L`. -/
structure Limited (m a : Nat) (L R : List Hit) : Prop where
  all : m = 0 ∨ a + L.length < m → R = L
  past : m ≠ 0 → m ≤ a → (R = [] ↔ L = [])
  exact : m ≠ 0 → a < m → m ≤ a + L.length → Confined L (m - a) → R = L.take (m - a)
  excess : m ≠ 0 → a < m → m ≤ a + L.length → ¬ Confined L (m - a) → m - a < R.length
  sub : R.Sublist L
  first : m ≠ 0 → L.take (m - a) <+: R

namespace Limited
variable {m a : Nat} {L S R RS : List Hit} {x : Hit}

theorem nil : Limited m a [] [] :=
  ⟨fun _ => rfl, fun _ _ => Iff.rfl, fun _ _ _ _ => by simp, fun _ h h' => absurd h' (by simp; omega),
    List.Sublist.refl [], fun _ => by simp⟩

/-- The limit is reached with a hit of the layer itself. -/
theorem last (hm : m ≠ 0) (ha : m ≤ a + 1) (hL : ∀ y ∈ L, layerPrefix x.1 <+: y.1) : Limited m a (x :: L) [x] := by
  have hconf : a < m → Confined (x :: L) (m - a) := by
    intro hlt
    rw [show m - a = 1 by omega]
    rintro z hz y hy
    simp only [Nat.sub_self, List.getElem?_cons_zero, Option.some.injEq] at hz
    exact hz ▸ hL y hy
  refine ⟨fun h => ?_, fun _ _ => by simp, fun _ hlt _ _ => ?_, fun _ hlt _ h => absurd (hconf hlt) h,
    List.singleton_sublist.mpr List.mem_cons_self, fun _ => ?_⟩
  · rcases h with h | h
    · exact absurd h hm
    · simp only [List.length_cons] at h
      omega
  · rw [show m - a = 1 by omega]
    rfl
  · exact (List.take_prefix_take_left (show m - a ≤ 1 by omega)).trans (by simp)

theorem cons (hm : m = 0 ∨ a + 1 < m) (h : Limited m (a + 1) L R) : Limited m a (x :: L) (x :: R) := by
  have hconf : a + 1 < m → (Confined (x :: L) (m - a) ↔ Confined L (m - (a + 1))) := by
    intro hlt
    obtain ⟨i, hi⟩ : ∃ i, m - (a + 1) = i + 1 := ⟨m - (a + 1) - 1, by omega⟩
    rw [show m - a = i + 1 + 1 by omega, hi]
    simp [Confined]
  have hlt : m ≠ 0 → a + 1 < m := fun h0 => hm.resolve_left h0
  refine ⟨fun h0 => ?_, fun h0 hle => ?_, fun h0 _ hle hc => ?_, fun h0 _ hle hc => ?_, h.sub.cons_cons x, fun h0 => ?_⟩
  · rw [h.all (h0.imp id fun h1 => by simp only [List.length_cons] at h1; omega)]
  · have := hlt h0
    omega
  · simp only [List.length_cons] at hle
    rw [h.exact h0 (hlt h0) (by omega) ((hconf (hlt h0)).mp hc), show m - a = m - (a + 1) + 1 by have := hlt h0; omega]
    rfl
  · simp only [List.length_cons] at hle ⊢
    have := h.excess h0 (hlt h0) (by omega) (fun hc' => hc ((hconf (hlt h0)).mpr hc'))
    omega
  · rw [show m - a = m - (a + 1) + 1 by have := hlt h0; omega, List.take_succ_cons]
    exact List.cons_prefix_cons.mpr ⟨rfl, h.first h0⟩

theorem append_first (hS : Limited m a S RS) (hL : Limited m (a + RS.length) L R) (h0 : m ≠ 0) :
    (S ++ L).take (m - a) <+: RS ++ R := by
  by_cases hsm : a + S.length < m
  · have hRS := hS.all (Or.inr hsm)
    subst hRS
    rw [List.take_append, List.take_of_length_le (l := RS) (by omega),
      show m - a - RS.length = m - (a + RS.length) by omega]
    exact List.prefix_append_right_inj RS |>.mpr (hL.first h0)
  · rw [List.take_append_of_le_length (by omega)]
    exact (hS.first h0).trans (List.prefix_append RS R)

/-- The hits of a layer below, and then those after it. -/
theorem append (hS : Limited m a S RS) (hL : Limited m (a + RS.length) L R)
    (hdis : ∀ x ∈ S, ∀ y ∈ L, ¬ layerPrefix x.1 <+: y.1) :
    Limited m a (S ++ L) (RS ++ R) := by
  refine ⟨fun h => ?_, fun h0 hle => ?_, fun h0 hlt hle hc => ?_, fun h0 hlt hle hc => ?_, hS.sub.append hL.sub,
    append_first hS hL⟩
  · have h1 : RS = S := hS.all (h.imp id fun h => by simp only [List.length_append] at h; omega)
    subst h1
    rw [hL.all (h.imp id fun h => by simp only [List.length_append] at h; omega)]
  · rw [List.append_eq_nil_iff, List.append_eq_nil_iff, hS.past h0 hle, hL.past h0 (by omega)]
  all_goals rw [List.length_append] at hle
  · by_cases hsm : a + S.length < m
    · have hRS := hS.all (Or.inr hsm)
      subst hRS
      have hc' : Confined L (m - (a + RS.length)) := by
        intro z hz y hy
        refine hc z ?_ y ?_
        · rw [List.getElem?_append_right (by omega), show m - a - 1 - RS.length = m - (a + RS.length) - 1 by omega]
          exact hz
        · rw [List.drop_append, List.mem_append, show m - a - RS.length = m - (a + RS.length) by omega]
          exact Or.inr hy
      rw [hL.exact h0 hsm (by omega) hc', List.take_append, List.take_of_length_le (l := RS) (by omega),
        show m - a - RS.length = m - (a + RS.length) by omega]
    · have hcS : Confined S (m - a) := by
        intro z hz y hy
        refine hc z ?_ y ?_
        · rw [List.getElem?_append_left (by omega)]
          exact hz
        · rw [List.drop_append, List.mem_append]
          exact Or.inl hy
      have hRS := hS.exact h0 hlt (by omega) hcS
      have hlen : RS.length = m - a := by
        rw [hRS, List.length_take]
        omega
      -- A hit after the layer would not be confined to it.
      have hnil : L = [] := by
        by_contra hne
        obtain ⟨y, hy⟩ := List.exists_mem_of_ne_nil L hne
        have hget : S[m - a - 1]? = some (S[m - a - 1]) := List.getElem?_eq_getElem (by omega)
        refine hdis _ (List.mem_of_getElem? hget) y hy (hc _ ?_ y ?_)
        · rw [List.getElem?_append_left (by omega)]
          exact hget
        · rw [List.drop_append, List.mem_append, show m - a - S.length = 0 by omega]
          exact Or.inr hy
      have hR : R = [] := (hL.past h0 (by omega)).mpr hnil
      rw [hR, hnil, List.append_nil, List.append_nil, hRS]
  · by_cases hsm : a + S.length < m
    · have hRS := hS.all (Or.inr hsm)
      subst hRS
      have hc' : ¬ Confined L (m - (a + RS.length)) := by
        intro hcL
        refine hc fun z hz y hy => ?_
        rw [List.getElem?_append_right (by omega), show m - a - 1 - RS.length = m - (a + RS.length) - 1 by omega] at hz
        rw [List.drop_append, List.drop_of_length_le (by omega), List.nil_append,
          show m - a - RS.length = m - (a + RS.length) by omega] at hy
        exact hcL z hz y hy
      have := hL.excess h0 hsm (by omega) hc'
      rw [List.length_append]
      omega
    · rw [List.length_append]
      by_cases hcS : Confined S (m - a)
      · have hRS := hS.exact h0 hlt (by omega) hcS
        have hlen : RS.length = m - a := by
          rw [hRS, List.length_take]
          omega
        have hne : L ≠ [] := by
          rintro rfl
          exact hc (by rwa [List.append_nil])
        have hR : R ≠ [] := fun hR => hne ((hL.past h0 (by omega)).mp hR)
        have := List.length_pos_of_ne_nil hR
        omega
      · have := hS.excess h0 hlt (by omega) hcS
        omega

end Limited

/-! ### The tuples of a layer -/

/-- The key is in the interval; inside a layer the left end is compared with what follows the prefix. -/
def ScanArgs.In (args : ScanArgs) (π : Path) (k : Key) : Prop := args.InLeft (k.drop (8 * π.length)) ∧ args.InRight k

instance (args : ScanArgs) (π : Path) (k : Key) : Decidable (args.In π k) := inferInstanceAs (Decidable (_ ∧ _))

/-- The tuples of the keys in the interval. -/
def hitsOf (s : State) (π : Path) (args : ScanArgs) (l : List (Key × ValuePtr)) : List Hit :=
  (l.filter fun p => decide (args.In π p.1)).map fun p => (p.1, p.2, s.lenOf p.2)

/-- The tuples behind entries of the layer at `π`. -/
def hits (s : State) (A : Forest) (n : Nat) (π : Path) (args : ScanArgs) (es : List Entry) : List Hit :=
  hitsOf s π args (es.flatMap (entryKeys (A.listing n) π))

/-- What a scan appends to the tuples, for the hits `L`. -/
def Appends (m : Nat) (L : List Hit) (out out' : ScanOut) : Prop := ∃ R, out'.tuples = out.tuples ++ R ∧
    Limited m out.tuples.length L R

def EntriesEnd.andThen (r : EntriesEnd) (k : ScanOut → Bool → ScanOut) : ScanOut :=
  match r with
  | .finished out pushed => k out pushed
  | .scanEnd out => out
  | _ => ⟨[], []⟩

section
variable {s : State} {ti : TreeId} {A : Forest} {dead : NodeId → Prop} {π : Path} {t : BTree} {n : Nat}
  {args args' : ScanArgs} {next : KeySlice → ScanArgs → ScanOut → ScanOut} {b : NodeId} {es : List Entry}
  {out out' : ScanOut} {pushed : Bool}

theorem ScanOut.record_tuples (out : ScanOut) (args : ScanArgs) (v : Version) (b : NodeId) :
    (out.record args v b).tuples = out.tuples := by
  unfold record
  split <;> rfl

theorem ScanOut.push_tuples (out : ScanOut) (args : ScanArgs) (v : Version) (b : NodeId) (k : Key)
    (p : ValuePtr) (l : Nat) :
    (out.push args v b k p l).tuples = out.tuples ++ [(k, p, l)] := by rw [push, record_tuples]

theorem ScanOut.close_tuples (out : ScanOut) (args : ScanArgs) (v : Version) (b : NodeId) (pushed : Bool) :
    (out.close args v b pushed).tuples = out.tuples := by
  unfold close
  split
  · rfl
  · exact out.record_tuples args v b

theorem bordersOut_cons (bs : List (NodeId × List Entry)) : bordersOut s next π args ((b, es) :: bs) out =
    (entriesEnd s next π args b es out false).andThen fun out p => bordersOut s next π args bs
    (out.close args (s.versionOf b) b p) := by
  rw [bordersOut]
  rcases entriesEnd_cases s next π args b es out false with ⟨out', p, h⟩ | ⟨out', h⟩
  · rw [h]
    rfl
  · rw [h]
    rfl

theorem hits_cons (e : Entry) :
    hits s A n π args (e :: es) = hitsOf s π args (entryKeys (A.listing n) π e) ++ hits s A n π args es := by
  simp [hits, hitsOf, List.flatMap_cons]

theorem hitsOf_eq_nil {l : List (Key × ValuePtr)} (h : ∀ p ∈ l, ¬ args.In π p.1) : hitsOf s π args l = [] := by
  rw [hitsOf, List.map_eq_nil_iff, List.filter_eq_nil_iff]
  exact fun p hp => by simpa using h p hp

theorem mem_hitsOf {l : List (Key × ValuePtr)} {x : Hit} : x ∈ hitsOf s π args l ↔ (x.1, x.2.1) ∈ l ∧ args.In π x.1 ∧
    x.2.2 = s.lenOf x.2.1 := by
  obtain ⟨k, v, len⟩ := x
  simp only [hitsOf, List.mem_map, List.mem_filter, decide_eq_true_eq, Prod.mk.injEq, Prod.exists]
  constructor
  · rintro ⟨k', v', ⟨hm, hin⟩, rfl, rfl, rfl⟩
    exact ⟨hm, hin, rfl⟩
  · rintro ⟨hm, hin, rfl⟩
    exact ⟨k, v, ⟨hm, hin⟩, rfl, rfl, rfl⟩

theorem ScanArgs.InRight.of_lt {k k' : Key} (h : args.InRight k') (hlt : k < k') : args.InRight k := by
  unfold InRight at h ⊢
  cases hr : args.rEnd with
  | inf => trivial
  | inclusive =>
    rw [hr] at h
    exact List.le_of_lt (Std.lt_of_lt_of_le hlt h)
  | exclusive =>
    rw [hr] at h
    exact List.lt_trans hlt h

theorem drop_pathBytes (π : Path) (x : Key) : (pathBytes π ++ x).drop (8 * π.length) = x := by
  rw [← pathBytes_length, List.drop_left]

/-- The left end that a layer is given says where it starts. -/
theorem leftArg_start {ks : KeySlice} {lKey : Key} {lEnd : ScanEndpoint} (h : leftArg args ks = some (lKey, lEnd))
    (hinf : lEnd = .inf) :
    lKey = [] := by
  unfold leftArg at h
  by_cases hl : args.lEnd = .inf
  · rw [if_pos hl, Option.some.injEq, Prod.mk.injEq] at h
    exact h.1.symm
  · rw [if_neg hl] at h
    cases hm : (KeySlice.ofKey args.lKey).memcmp ks sliceSize with
    | lt =>
      rw [hm, Option.some.injEq, Prod.mk.injEq] at h
      exact h.1.symm
    | eq =>
      rw [hm, Option.some.injEq, Prod.mk.injEq] at h
      exact absurd (h.2.trans hinf) hl
    | gt => simp [hm] at h

/-- No key from an entry on is in the interval once one behind the entry is right of it. -/
theorem Holds.hits_beyond (H : Holds s ti A dead) (ht : A π = some t) {e : Entry} (hmem : ∀ x ∈ e :: es, x ∈ t.entries)
    (hs : ((e :: es).map fun x => x.key.code).Pairwise (· < ·))
    (hno : ∀ p ∈ entryKeys (A.listing n) π e, ¬ args.InRight p.1) (hlead : ∃ k, e.Leads π k ∧ ¬ args.InRight k) :
    hits s A n π args (e :: es) = [] := by
  refine hitsOf_eq_nil fun p hp hin => ?_
  obtain ⟨x, hx, hpx⟩ := List.mem_flatMap.mp hp
  rcases List.mem_cons.mp hx with rfl | hx'
  · exact hno p hpx hin.2
  · obtain ⟨k, hk, hnk⟩ := hlead
    have hlt : e.key.code < x.key.code := by
      rw [List.map_cons, List.pairwise_cons] at hs
      exact hs.1 _ (List.mem_map.mpr ⟨x, hx', rfl⟩)
    have := hk.lt (H.leads ht (hmem x hx) hpx) ((H.layers ht).entry_ok (hmem e List.mem_cons_self)).1
      ((H.layers ht).entry_ok (hmem x hx)).1 hlt
    exact hnk (hin.2.of_lt this)

theorem Appends.nil (m : Nat) (out : ScanOut) (h : out'.tuples = out.tuples) : Appends m [] out out' :=
  ⟨[], by rw [h, List.append_nil], Limited.nil⟩

/-- The hits behind a link are those of the layer under the ends it is given. -/
theorem Holds.hitsOf_layer (H : Holds s ti A dead) (ht : A π = some t) {k : KeyTuple}
    (he : ⟨k, .layer⟩ ∈ t.entries) {lKey rKey : Key} {lEnd rEnd : ScanEndpoint}
    (hl : leftArg args k.slice = some (lKey, lEnd)) (hr : rightArg args (keyAt π k) = some (rKey, rEnd)) :
    hitsOf s (k.slice :: π) { args with lKey, lEnd, rKey, rEnd } (A.listing n (k.slice :: π)) =
      hitsOf s π args (A.listing n (k.slice :: π)) := by
  obtain ⟨henc, hlay⟩ := (H.layers ht).entry_ok he
  have h9 : k.length = 9 := hlay.mp rfl
  refine congrArg _ (List.filter_congr fun p hp => decide_eq_decide.mpr ?_)
  obtain ⟨x, hx, hne⟩ := H.mem_listing hp
  have hright := @inRight_of_rightArg args { args with lKey, lEnd, rKey, rEnd } _ x _ _ hr rfl rfl
  have hleft := @inLeft_of_leftArg args { args with lKey, lEnd, rKey, rEnd } _ _ _ _ henc h9 hl rfl rfl (hne (by simp))
  rw [keyAt_layer h9] at hright
  rw [ScanArgs.In, ScanArgs.In, hx, hright, drop_pathBytes, hleft, pathBytes, List.append_assoc, drop_pathBytes,
    KeyTuple.bytes_of_nine h9]

/-- The hits behind a link do not share the prefix of its layer with later ones. -/
theorem Holds.hits_apart (H : Holds s ti A dead) (ht : A π = some t) {e : Entry} (hmem : ∀ x ∈ e :: es, x ∈ t.entries)
    (hs : ((e :: es).map fun x => x.key.code).Pairwise (· < ·)) (hc : e.content = .layer) :
    ∀ x ∈ hitsOf s π args (A.listing n (e.key.slice :: π)), ∀ y ∈ hits s A n π args es, ¬ layerPrefix x.1 <+: y.1 := by
  intro x hx y hy hpre
  obtain ⟨henc, hlay⟩ := (H.layers ht).entry_ok (hmem e List.mem_cons_self)
  have h9 : e.key.length = 9 := hlay.mp hc
  obtain ⟨z, hz, hzne⟩ := H.mem_listing (mem_hitsOf.mp hx).1
  -- The prefix of the layer is part of the layer prefix of a key in it.
  have hpath : pathBytes (e.key.slice :: π) <+: y.1 := by
    refine List.IsPrefix.trans ?_ hpre
    have hlen : (pathBytes (e.key.slice :: π)).length ≤ 8 * Yakushima.layers x.1 := by
      have hpos := List.length_pos_of_ne_nil (hzne (by simp))
      rw [hz, pathBytes_length, Yakushima.layers, List.length_append, pathBytes_length]
      omega
    refine List.prefix_of_prefix_length_le ⟨z, hz.symm⟩ (List.take_prefix _ _) ?_
    rw [layerPrefix_eq, List.length_take]
    have := congrArg List.length hz
    rw [List.length_append] at this
    omega
  obtain ⟨e', he', hye⟩ := List.mem_flatMap.mp (mem_hitsOf.mp hy).1
  have hlt : e.key.code < e'.key.code := by
    rw [List.map_cons, List.pairwise_cons] at hs
    exact hs.1 _ (List.mem_map.mpr ⟨e', he', rfl⟩)
  have hmem' := hmem e' (List.mem_cons_of_mem _ he')
  have hbelow : ∀ w, w ≠ [] → pathBytes (e.key.slice :: π) ++ w < y.1 := fun w hw =>
    Entry.Leads.lt ⟨w, by rw [pathBytes, KeyTuple.bytes_of_nine h9, List.append_assoc], fun h8 => by omega, fun _ => hw⟩
      (H.leads ht hmem' hye) henc ((H.layers ht).entry_ok hmem').1 hlt
  obtain ⟨w, hw⟩ := hpath
  by_cases hwnil : w = []
  · have h1 := hbelow [0] (by simp)
    have h2 : pathBytes (e.key.slice :: π) < pathBytes (e.key.slice :: π) ++ [0] := lt_append (by simp)
    rw [← hw, hwnil, List.append_nil] at h1
    exact List.lt_irrefl _ (List.lt_trans h1 h2)
  · have h1 := hbelow w hwnil
    rw [hw] at h1
    exact List.lt_irrefl _ h1

/-- The loop over the rest of a layer, from an entry of a border on. -/
theorem Holds.entriesEnd_appends (H : Holds s ti A dead) (ht : A π = some t)
    (hnext : ∀ sl args' out, (args'.lEnd = .inf → args'.lKey = []) →
      Appends args'.maxSize (hitsOf s (sl :: π) args' (A.listing n (sl :: π))) out (next sl args' out))
    {E : List Entry} {cont : ScanOut → Bool → ScanOut}
    (hcont : ∀ out p, Appends args.maxSize (hits s A n π args E) out (cont out p)) :
    ∀ (es : List Entry) (out : ScanOut) (pushed : Bool), (∀ e ∈ es ++ E, e ∈ t.entries) →
      ((es ++ E).map fun e => e.key.code).Pairwise (· < ·) →
      Appends args.maxSize (hits s A n π args (es ++ E)) out ((entriesEnd s next π args b es out pushed).andThen cont) := by
  intro es
  induction es with
  | nil => exact fun out pushed _ _ => hcont out pushed
  | cons e es ih =>
    intro out pushed hmem hs
    have hmem' : ∀ x ∈ es ++ E, x ∈ t.entries := fun x hx => hmem x (List.mem_cons_of_mem _ hx)
    have hs' : ((es ++ E).map fun x => x.key.code).Pairwise (· < ·) := by
      rw [List.cons_append, List.map_cons, List.pairwise_cons] at hs
      exact hs.2
    obtain ⟨henc, hlay⟩ := (H.layers ht).entry_ok (hmem e List.mem_cons_self)
    obtain ⟨k, c⟩ := e
    rw [List.cons_append] at hmem hs ⊢
    have hkeyAt : (keyAt π k).drop (8 * π.length) = k.bytes := drop_pathBytes π _
    cases c with
    | layer =>
      have h9 : k.length = 9 := hlay.mp rfl
      have hkeys : entryKeys (A.listing n) π ⟨k, .layer⟩ = A.listing n (k.slice :: π) := rfl
      have hform : ∀ p ∈ A.listing n (k.slice :: π), ∃ x, p.1 = keyAt π k ++ x ∧ x ≠ [] := fun p hp => by
        obtain ⟨x, hx, hne⟩ := H.mem_listing hp
        exact ⟨x, by rw [keyAt_layer h9]; exact hx, hne (by simp)⟩
      simp only [entriesEnd]
      cases hl : leftArg args k.slice with
      | none =>
        have hno : hitsOf s π args (entryKeys (A.listing n) π ⟨k, .layer⟩) = [] := by
          refine hitsOf_eq_nil fun p hp hin => ?_
          obtain ⟨x, hx, -⟩ := hform p hp
          refine not_inLeft_of_leftArg (x := x) henc h9 hl ?_
          have hleft := hin.1
          rw [hx, keyAt, List.append_assoc, drop_pathBytes] at hleft
          exact hleft
        rw [hits_cons, hno, List.nil_append]
        exact ih out pushed hmem' hs'
      | some lArg =>
        obtain ⟨lKey, lEnd⟩ := lArg
        cases hr : rightArg args (keyAt π k) with
        | none =>
          have hbeyond := H.hits_beyond (n := n) ht hmem hs (fun p hp => by
            obtain ⟨x, hx, hne⟩ := hform p hp
            rw [hx]
            exact not_inRight_of_rightArg hr hne)
            ⟨keyAt π k ++ [0],
              ⟨[0], by rw [keyAt, KeyTuple.bytes, List.append_assoc], fun h8 => absurd (show k.length ≤ 8 from h8)
              (by omega), fun _ => by simp⟩,
              not_inRight_of_rightArg hr (by simp)⟩
          rw [hbeyond]
          exact Appends.nil _ _ rfl
        | some rArg =>
          obtain ⟨rKey, rEnd⟩ := rArg
          obtain ⟨RS, htS, hlS⟩ := hnext k.slice { args with lKey, lEnd, rKey, rEnd } out fun hinf => leftArg_start hl hinf
          rw [H.hitsOf_layer ht (hmem _ List.mem_cons_self) hl hr] at hlS
          obtain ⟨R, htR, hlR⟩ := ih (next k.slice { args with lKey, lEnd, rKey, rEnd } out) pushed hmem' hs'
          rw [htS, List.length_append] at hlR
          refine ⟨RS ++ R, by rw [htR, htS, List.append_assoc], ?_⟩
          rw [hits_cons, hkeys]
          exact hlS.append hlR (H.hits_apart ht hmem hs rfl)
    | value v =>
      have hlen : k.length ≤ 8 := by
        have h9 := henc.length_le
        have hne : k.length ≠ 9 := fun h => absurd (hlay.mpr h) (by simp)
        simp only at h9
        omega
      have hkeys : entryKeys (A.listing n) π ⟨k, .value v⟩ = [(keyAt π k, v)] := rfl
      have hin : args.In π (keyAt π k) ↔ belowLeft args k.slice k.length = false ∧ withinRight args (keyAt π k) = true := by
        have h := @belowLeft_iff args _ henc hlen
        rw [ScanArgs.In, hkeyAt, withinRight_iff, ← Bool.not_eq_true, h, not_not]
      simp only [entriesEnd]
      by_cases hbl : belowLeft args k.slice k.length = true
      · rw [if_pos hbl, hits_cons, hkeys, hitsOf_eq_nil (by simp [hin, hbl]), List.nil_append]
        exact ih out pushed hmem' hs'
      · rw [if_neg hbl]
        by_cases hwr : withinRight args (keyAt π k) = true
        · have hhit : hits s A n π args (⟨k, .value v⟩ :: (es ++ E)) = (keyAt π k, v, s.lenOf v) :: hits s A n π args
            (es ++ E) := by
            rw [hits_cons, hkeys]
            simp [hitsOf, hin, hbl, hwr]
          rw [if_pos hwr, hhit]
          have hlength : (out.push args (s.versionOf b) b (keyAt π k) v (s.lenOf v)).tuples.length =
            out.tuples.length + 1 := by
            rw [ScanOut.push_tuples, List.length_append]
            rfl
          by_cases hmax : args.maxSize ≠ 0 ∧
            args.maxSize ≤ (out.push args (s.versionOf b) b (keyAt π k) v (s.lenOf v)).tuples.length
          · rw [if_pos hmax]
            refine ⟨[(keyAt π k, v, s.lenOf v)], out.push_tuples args _ b _ v _, Limited.last hmax.1 (hlength ▸ hmax.2)
              fun y hy => ?_⟩
            -- The key has its value in this layer, and so the other hits share its layer prefix.
            obtain ⟨e', he', hye⟩ := List.mem_flatMap.mp (mem_hitsOf.mp hy).1
            obtain ⟨x, hx, -⟩ := H.leads ht (hmem' e' he') hye
            have hpos : π ≠ [] → k.length ≠ 0 := by
              cases π with
              | nil => exact fun h => absurd rfl h
              | cons sl π => exact fun _ => H.ok.positive ht _ (hmem _ List.mem_cons_self)
            have hlayers : Yakushima.layers (keyAt π k) = π.length := by
              have := congrArg List.length (place_keyAt henc hlen hpos).1
              rwa [keyPath, layerPath_length, List.length_nil, Nat.zero_add] at this
            have hpre : layerPrefix (keyAt π k) = pathBytes π := by
              rw [layerPrefix_eq, hlayers, keyAt, ← pathBytes_length, List.take_left]
            rw [hpre]
            exact ⟨_, hx.symm⟩
          · rw [if_neg hmax]
            obtain ⟨R, htR, hlR⟩ := ih (out.push args (s.versionOf b) b (keyAt π k) v (s.lenOf v)) true hmem' hs'
            rw [hlength] at hlR
            refine ⟨(keyAt π k, v, s.lenOf v) :: R, by rw [htR, ScanOut.push_tuples, List.append_assoc]; rfl, hlR.cons ?_⟩
            rw [hlength] at hmax
            omega
        · rw [if_neg hwr]
          have hnot : ¬ args.InRight (keyAt π k) := fun h => hwr (withinRight_iff.mpr h)
          have hbeyond := H.hits_beyond (n := n) ht hmem hs (fun p hp => by
            rw [hkeys, List.mem_singleton] at hp
            rw [hp]
            exact hnot)
            ⟨keyAt π k,
              ⟨[], by rw [List.append_nil]; rfl, fun _ => rfl, fun h => absurd (show k.length = 9 from h) (by omega)⟩, hnot⟩
          rw [hbeyond]
          exact Appends.nil _ _ (ScanOut.close_tuples _ _ _ _ _)

/-- The loop over the borders of the rest of a layer. -/
theorem Holds.bordersOut_appends (H : Holds s ti A dead) (ht : A π = some t)
    (hnext : ∀ sl args' out, (args'.lEnd = .inf → args'.lKey = []) →
      Appends args'.maxSize (hitsOf s (sl :: π) args' (A.listing n (sl :: π))) out (next sl args' out)) :
    ∀ (bs : List (NodeId × List Entry)) (out : ScanOut), (∀ e ∈ bs.flatMap (·.2), e ∈ t.entries) →
      ((bs.flatMap (·.2)).map fun e => e.key.code).Pairwise (· < ·) →
      Appends args.maxSize (hits s A n π args (bs.flatMap (·.2))) out (bordersOut s next π args bs out) := by
  intro bs
  induction bs with
  | nil => exact fun out _ _ => Appends.nil _ _ rfl
  | cons x bs ih =>
    intro out hmem hs
    obtain ⟨b, es⟩ := x
    rw [List.flatMap_cons] at hmem hs ⊢
    rw [bordersOut_cons]
    refine H.entriesEnd_appends ht hnext (fun out p => ?_) es out false hmem hs
    obtain ⟨R, htR, hlR⟩ := ih (out.close args (s.versionOf b) b p) (fun e he => hmem e (List.mem_append_right _ he)) (by
      rw [List.map_append] at hs
      exact (List.pairwise_append.mp hs).2.1)
    rw [ScanOut.close_tuples] at htR hlR
    exact ⟨R, htR, hlR⟩

/-! ### Where the scan of a layer starts -/

/-- The code that a scan starts from is not above the one of its left key. -/
theorem ScanArgs.startCode_le (args : ScanArgs) : args.startCode ≤ (KeyTuple.ofKey args.lKey).code := by
  rcases Nat.lt_or_ge 8 args.lKey.length with h | h
  · rw [startCode, KeyTuple.code, KeyTuple.code, KeyTuple.ofKey, keyLength_of_gt h]
    have hnum : (KeyTuple.norm (.ofKey args.lKey) (args.lKey.length % 256)).slice.num ≤ (KeySlice.ofKey args.lKey).num := by
      rw [KeyTuple.norm, KeyTuple.ofKey_take_num]
      have := ((KeySlice.ofKey args.lKey).num_split (args.lKey.length % 256)).1
      omega
    have hlen : (KeyTuple.norm (.ofKey args.lKey) (args.lKey.length % 256)).length ≤ 9 := Nat.min_le_right _ _
    simp only
    omega
  · have hmod : args.lKey.length % 256 = keyLength args.lKey := by
      rw [keyLength_of_le h]
      omega
    rw [startCode, hmod]
    exact Nat.le_of_eq (congrArg KeyTuple.code (KeyTuple.norm_of_encoded (KeyTuple.ofKey_encoded args.lKey)))

/-- The entries before the ones that a scan starts from. -/
theorem LayerOk.before {par : Ptr} {link : KeySlice → Ptr} (h : LayerOk s par link dead t) (args : ScanArgs) :
    ∃ E, t.entries = E ++ (t.fromCode args.startCode).flatMap (·.2) ∧ ∀ e ∈ E, e.key.code < args.startCode := by
  obtain ⟨c, b, es, bd, rfl, hbt, -⟩ := run_findBorder h (.ofKey args.lKey) (args.lKey.length % 256)
  refine ⟨(Ctx.bordersLeft c).flatMap (·.2), ?_, fun e he => ?_⟩
  · rw [ScanArgs.startCode, fromCode_eq hbt, BTree.entries, Ctx.plug_borders, List.append_assoc, List.flatMap_append]
    rfl
  · have := hbt.1 _ (Ctx.mark_mem_flatLeft he)
    simp only [Entry.mark] at this
    rw [ScanArgs.startCode]
    omega

theorem LayerOk.from_mem {par : Ptr} {link : KeySlice → Ptr} (h : LayerOk s par link dead t) (args : ScanArgs) :
    (∀ e ∈ (t.fromCode args.startCode).flatMap (·.2), e ∈ t.entries) ∧
      (((t.fromCode args.startCode).flatMap (·.2)).map fun e => e.key.code).Pairwise (· < ·) := by
  obtain ⟨E, hE, -⟩ := h.before args
  have hs := h.codes
  rw [hE, List.map_append] at hs
  exact ⟨fun e he => hE ▸ List.mem_append_right _ he, (List.pairwise_append.mp hs).2.1⟩

/-- The hits left of where a scan starts: there are none but below the left key of a scan without a left end. -/
theorem Holds.hits_from (H : Holds s ti A dead) (ht : A π = some t) (args : ScanArgs) : ∃ hidden,
    hitsOf s π args (A.listing (n + 1) π) = hidden ++ hits s A n π args ((t.fromCode args.startCode).flatMap (·.2)) ∧
      ∀ x ∈ hidden, args.lEnd = .inf ∧ x.1.drop (8 * π.length) < args.lKey := by
  obtain ⟨E, hE, hcode⟩ := (H.layers ht).before args
  have hlist : A.listing (n + 1) π = E.flatMap (entryKeys (A.listing n) π) ++
      ((t.fromCode args.startCode).flatMap (·.2)).flatMap (entryKeys (A.listing n) π) := by
    rw [← List.flatMap_append, ← hE]
    simp only [Forest.listing, ht]
  refine ⟨hitsOf s π args (E.flatMap (entryKeys (A.listing n) π)), ?_, fun x hx => ?_⟩
  · rw [hlist, hits, hitsOf, hitsOf, hitsOf, List.filter_append, List.map_append]
  · obtain ⟨hmem, hin, -⟩ := mem_hitsOf.mp hx
    obtain ⟨e, he, hpe⟩ := List.mem_flatMap.mp hmem
    have het : e ∈ t.entries := hE ▸ List.mem_append_left _ he
    have hlt : e.key.code < (KeyTuple.ofKey args.lKey).code := Nat.lt_of_lt_of_le (hcode e he) args.startCode_le
    obtain ⟨z, hz, hz8, -⟩ := H.leads ht het hpe
    have hbelow := KeyTuple.lt_key ((H.layers ht).entry_ok het).1 hlt hz8
    rw [hz, drop_pathBytes]
    refine ⟨?_, hbelow⟩
    by_contra hinf
    have hleft := hin.1
    rw [hz, drop_pathBytes] at hleft
    exact not_inLeft_of_lt hinf hbelow hleft

/-- A scan starts left of all its hits, if its left key is empty whenever it has no left end. -/
theorem Holds.hits_start (H : Holds s ti A dead) (ht : A π = some t) (hstart : args.lEnd = .inf → args.lKey = []) :
    hits s A n π args ((t.fromCode args.startCode).flatMap (·.2)) = hitsOf s π args (A.listing (n + 1) π) := by
  obtain ⟨hidden, heq, hbelow⟩ := H.hits_from (n := n) ht args
  have hnil : hidden = [] := by
    refine List.eq_nil_iff_forall_not_mem.mpr fun x hx => ?_
    obtain ⟨hinf, hlt⟩ := hbelow x hx
    rw [hstart hinf] at hlt
    exact List.not_lt_nil _ hlt
  rw [heq, hnil, List.nil_append]

/-- The scan of a layer below a link. -/
theorem Holds.layerOut_appends (H : Holds s ti A dead) : ∀ (n : Nat) (π : Path) (args : ScanArgs) (out : ScanOut),
    (args.lEnd = .inf → args.lKey = []) → Appends args.maxSize (hitsOf s π args (A.listing n π)) out
    (layerOut s A n π args out) := by
  intro n
  induction n with
  | zero => exact fun π args out _ => Appends.nil _ _ rfl
  | succ n ih =>
    intro π args out hstart
    rw [layerOut]
    cases ht : A π with
    | none =>
      simp only [Forest.listing, ht]
      exact Appends.nil _ _ rfl
    | some t =>
      obtain ⟨hmem, hs⟩ := (H.layers ht).from_mem args
      rw [← H.hits_start ht hstart]
      exact H.bordersOut_appends ht (fun sl args' out h => ih (sl :: π) args' out h) _ out hmem hs

/-- The scan of the first layer, from the border that it starts in. -/
theorem Holds.firstLayer_appends (H : Holds s ti A dead) (ht : A [] = some t) (args : ScanArgs) :
    Appends args.maxSize (hits s A n [] args ((t.fromCode args.startCode).flatMap (·.2))) ⟨[], []⟩
      (layerOut s A (n + 1) [] args ⟨[], []⟩) := by
  obtain ⟨hmem, hs⟩ := (H.layers ht).from_mem args
  simp only [layerOut, ht]
  exact H.bordersOut_appends ht (fun sl args' out h => H.layerOut_appends n (sl :: []) args' out h) _ _ hmem hs

end
end Yakushima
