import Yakushima.Theorems.Range

/-! # Range scans of a tree

The tuples of a scan without a limit are the bindings of the interval in order. A limit is respected as long as all
keys of the interval that follow the last allowed one are in its layer or below it. -/

namespace Yakushima
open M Permutation

section
variable {s : State} {ti : TreeId} {A : Forest} {dead : NodeId → Prop} {m : MapState} {args : ScanArgs}

theorem ScanArgs.in_nil {k : Key} : args.In [] k ↔ args.Contains k := Iff.rfl

theorem RefinesIn.root_iff (h : RefinesIn s ti A dead m) : A [] ≠ none ↔ s.root ti ≠ none := by
  rw [h.holds.root, ne_eq, ne_eq, Option.map_eq_none_iff]

theorem RefinesIn.rooted_iff (h : RefinesIn s ti A dead m) : s.root ti ≠ none ↔ m.rooted = true := by
  rw [← h.root_iff, ne_eq, h.rooted]
  simp

theorem hitsOf_congr {args' : ScanArgs} {π : Path} {l : List (Key × ValuePtr)} (h : ∀ k, args.In π k ↔ args'.In π k) :
    hitsOf s π args l = hitsOf s π args' l :=
  congrArg _ (List.filter_congr fun p _ => decide_eq_decide.mpr (h p.1))

theorem RefinesIn.bindings (h : RefinesIn s ti A dead m) {D : Nat} (hD : ∀ π t, A π = some t → π.length ≤ D) :
    Bindings ValueArg.storedLen m args (hitsOf s [] args (A.listing (D + 1) [])) := by
  refine ⟨?_, fun k v len => ?_⟩
  · have hs := h.holds.listing_sorted (n := D + 1) (π := [])
    rw [hitsOf, List.map_map]
    rw [List.pairwise_map] at hs ⊢
    exact hs.filter _
  · rw [mem_hitsOf]
    simp only [h.holds.mem_listing_iff hD, ScanArgs.in_nil, h.binds]
    constructor
    · rintro ⟨⟨arg, hb⟩, hin, rfl⟩
      exact ⟨hin, ⟨v, arg⟩, hb, rfl, (h.stored k _ hb).lenOf.symm⟩
    · rintro ⟨hin, ⟨p, arg⟩, hb, rfl, rfl⟩
      exact ⟨⟨arg, hb⟩, hin, (h.stored k _ hb).lenOf.symm⟩

theorem eq_of_sorted_keys {L L' : List Hit} (hs : (L.map (·.1)).Pairwise (· < ·)) (hs' : (L'.map (·.1)).Pairwise (· < ·))
    (h : ∀ x, x ∈ L ↔ x ∈ L') : L = L' := by
  rw [List.pairwise_map] at hs hs'
  have hne : ∀ {a b : Hit}, a.1 < b.1 → a ≠ b := by
    rintro a b hab rfl
    exact List.lt_irrefl _ hab
  have hnd : L.Nodup := hs.imp hne
  have hnd' : L'.Nodup := hs'.imp hne
  refine List.Perm.eq_of_pairwise (fun a b _ _ hab hba => absurd (List.lt_trans hab hba) (List.lt_irrefl _)) hs hs' ?_
  exact (List.perm_ext_iff_of_nodup hnd hnd').mpr h

/-- With values that fit their headers the tuples give the lengths of the values. -/
theorem Bindings.representable {L : List Hit} (h : Bindings ValueArg.storedLen m args L) (hm : m.Representable) :
    Bindings ValueArg.len m args L := by
  refine ⟨h.sorted, fun k v n => (h.mem_iff k v n).trans
    (and_congr_right fun _ => exists_congr fun b => and_congr_right fun hb => ?_)⟩
  rw [(hm k b hb).storedLen]

theorem Bindings.unique {len : ValueArg → Nat} {L L' : List Hit} (h : Bindings len m args L)
    (h' : Bindings len m args L') : L = L' :=
  eq_of_sorted_keys h.sorted h'.sorted fun ⟨k, v, len⟩ => (h.mem_iff k v len).trans (h'.mem_iff k v len).symm

/-- `scan` on a tree that refines a map: without a left end it may miss keys below the left key. -/
theorem RefinesIn.scan_from (h : RefinesIn s ti A dead m) (hroot : s.root ti ≠ none) (hargs : ¬ args.Rejected) :
    ∃ hidden shown,
    Bindings ValueArg.storedLen m args (hidden ++ shown) ∧ (∀ x ∈ hidden, args.lEnd = .inf ∧ x.1 < args.lKey) ∧
      ∀ n out, ∃ out',
        (∀ retry, Returns (fun fuel => Yakushima.scan fuel retry ti { args with maxSize := n } out) s (.ok, out') s) ∧
        Limited n 0 shown out'.tuples := by
  obtain ⟨D, hD⟩ := h.holds.ok.bounded
  obtain ⟨t, ht⟩ := Option.ne_none_iff_exists'.mp (h.root_iff.mpr hroot)
  obtain ⟨hidden, heq, hbelow⟩ := h.holds.hits_from (n := D) ht args
  refine ⟨hidden, _, heq ▸ h.bindings hD, hbelow, fun n out => ?_⟩
  obtain ⟨N, hN⟩ := run_scan h.holds (h.root_iff.mpr hroot) hD { args with maxSize := n } hargs out
  obtain ⟨R, htR, hlR⟩ := h.holds.firstLayer_appends (n := D) ht { args with maxSize := n }
  refine ⟨_, fun retry => ⟨N, fun fuel hf => hN retry fuel hf⟩, ?_⟩
  have hsame : ∀ E, hits s A D [] args E = hits s A D [] { args with maxSize := n } E :=
    fun _ => hitsOf_congr fun _ => Iff.rfl
  rw [htR, hsame]
  exact hlR

theorem RefinesIn.scan (h : RefinesIn s ti A dead m) (hroot : s.root ti ≠ none) (hargs : ¬ args.Rejected)
    (hstart : args.lEnd = .inf → args.lKey = []) : ∃ L, Bindings ValueArg.storedLen m args L ∧ ∀ n out, ∃ out', (∀ retry,
      Returns (fun fuel => Yakushima.scan fuel retry ti { args with maxSize := n } out) s (.ok, out') s) ∧
        Limited n 0 L out'.tuples := by
  obtain ⟨hidden, shown, hb, hbelow, hscan⟩ := h.scan_from hroot hargs
  have hnil : hidden = [] := by
    refine List.eq_nil_iff_forall_not_mem.mpr fun x hx => ?_
    obtain ⟨hinf, hlt⟩ := hbelow x hx
    rw [hstart hinf] at hlt
    exact List.not_lt_nil _ hlt
  subst hnil
  exact ⟨shown, hb, hscan⟩

end

/-! ### A limit on the number of tuples -/

/-- The keys of the interval that follow the `n`-th one are in its layer or below it. -/
def MapState.Confines (m : MapState) (args : ScanArgs) (n : Nat) : Prop :=
  ∀ x ∈ m.map.keys, ∀ y ∈ m.map.keys, args.Contains x → args.Contains y → x < y →
    (m.map.keys.filter fun k => args.Contains k ∧ k < x).card = n - 1 → layerPrefix x <+: y

section
variable {s : State} {ti : TreeId} {A : Forest} {dead : NodeId → Prop} {m : MapState} {args : ScanArgs} {L : List Hit}
  {len : ValueArg → Nat}

theorem filter_lt_of_sorted {l : List Key} (hs : l.Pairwise (· < ·)) {i : Nat} {x : Key} (hx : l[i]? = some x) :
    (l.filter fun k => decide (k < x)) = l.take i := by
  obtain ⟨hi, hget⟩ := List.getElem?_eq_some_iff.mp hx
  have hsplit : l = l.take i ++ x :: l.drop (i + 1) := by
    rw [← hget, List.getElem_cons_drop, List.take_append_drop]
  rw [hsplit, List.pairwise_append, List.pairwise_cons] at hs
  conv_lhs => rw [hsplit]
  rw [List.filter_append, List.filter_cons, List.filter_eq_self.mpr fun a ha => ?_, List.filter_eq_nil_iff.mpr
    fun a ha => ?_]
  · simp
  · have := hs.2.1.1 a ha
    simpa using List.le_of_lt this
  · simpa using hs.2.2 a ha x List.mem_cons_self

theorem Bindings.mem_keys (h : Bindings len m args L) {k : Key} : k ∈ L.map (·.1) ↔ k ∈ m.map.keys ∧ args.Contains k := by
  simp only [List.mem_map, Prod.exists, exists_and_right, exists_eq_right, Finmap.mem_keys, h.mem_iff]
  constructor
  · rintro ⟨v, n, hin, b, hb, -⟩
    exact ⟨Finmap.mem_of_lookup_eq_some hb, hin⟩
  · rintro ⟨hk, hin⟩
    obtain ⟨b, hb⟩ := Finmap.mem_iff.mp hk
    exact ⟨b.ptr, len b.value, hin, b, hb, rfl, rfl⟩

theorem Bindings.card_lt (h : Bindings len m args L) {i : Nat} {x : Key} (hx : (L.map (·.1))[i]? = some x) :
    (m.map.keys.filter fun k => args.Contains k ∧ k < x).card = i := by
  have hnd : (L.map (·.1)).Nodup := h.sorted.imp fun {a b} hab => by
    rintro rfl
    exact List.lt_irrefl _ hab
  have hset : (m.map.keys.filter fun k => args.Contains k ∧ k < x) = ((L.map (·.1)).take i).toFinset := by
    rw [← filter_lt_of_sorted h.sorted hx]
    ext k
    simp only [Finset.mem_filter, List.mem_toFinset, List.mem_filter, h.mem_keys, decide_eq_true_eq]
    tauto
  rw [hset, List.toFinset_card_of_nodup (hnd.sublist (List.take_sublist i _)), List.length_take]
  have := (List.getElem?_eq_some_iff.mp hx).1
  omega

theorem Bindings.confined_iff (h : Bindings len m args L) {n : Nat} (hn : 0 < n) : Confined L n ↔ m.Confines args n := by
  constructor
  · intro hc x hx y hy hxin hyin hxy hcard
    obtain ⟨i, hi⟩ := List.mem_iff_getElem?.mp (h.mem_keys.mpr ⟨hx, hxin⟩)
    obtain rfl : i = n - 1 := (h.card_lt hi).symm.trans hcard
    obtain ⟨j, hj⟩ := List.mem_iff_getElem?.mp (h.mem_keys.mpr ⟨hy, hyin⟩)
    have hij : n - 1 < j := by
      by_contra hle
      have hs := h.sorted
      obtain ⟨hil, hig⟩ := List.getElem?_eq_some_iff.mp hi
      obtain ⟨hjl, hjg⟩ := List.getElem?_eq_some_iff.mp hj
      rcases Nat.eq_or_lt_of_le (Nat.not_lt.mp hle) with rfl | hlt
      · rw [← hig, ← hjg] at hxy
        exact List.lt_irrefl _ hxy
      · have := List.pairwise_iff_getElem.mp hs j (n - 1) hjl hil hlt
        rw [hig, hjg] at this
        exact List.lt_irrefl _ (List.lt_trans this hxy)
    rw [List.getElem?_map] at hi hj
    obtain ⟨hx', hgx, rfl⟩ := Option.map_eq_some_iff.mp hi
    obtain ⟨hy', hgy, rfl⟩ := Option.map_eq_some_iff.mp hj
    refine hc hx' hgx hy' (List.mem_iff_getElem?.mpr ⟨j - n, ?_⟩)
    rw [List.getElem?_drop, show n + (j - n) = j by omega]
    exact hgy
  · intro hm x hx y hy
    obtain ⟨j, hj⟩ := List.mem_iff_getElem?.mp hy
    rw [List.getElem?_drop] at hj
    have hxk : (L.map (·.1))[n - 1]? = some x.1 := by rw [List.getElem?_map, hx]; rfl
    have hyk : (L.map (·.1))[n + j]? = some y.1 := by rw [List.getElem?_map, hj]; rfl
    obtain ⟨hxm, hxin⟩ := h.mem_keys.mp (List.mem_of_getElem? hxk)
    obtain ⟨hym, hyin⟩ := h.mem_keys.mp (List.mem_of_getElem? hyk)
    refine hm x.1 hxm y.1 hym hxin hyin ?_ (h.card_lt hxk)
    obtain ⟨hil, hig⟩ := List.getElem?_eq_some_iff.mp hxk
    obtain ⟨hjl, hjg⟩ := List.getElem?_eq_some_iff.mp hyk
    rw [← hig, ← hjg]
    exact List.pairwise_iff_getElem.mp h.sorted (n - 1) (n + j) hil hjl (by omega)

/-- The tuples under a limit are the first ones of those without it just when no key of the interval after the last
    allowed one lies outside its layer. -/
theorem Limited.take_iff {n : Nat} {R : List Hit} (h : Limited n 0 L R) (hn : 0 < n) : R = L.take n ↔ Confined L n := by
  constructor
  · intro hR
    by_contra hc
    by_cases hle : n ≤ 0 + L.length
    · have := h.excess (by omega) hn hle hc
      rw [hR, List.length_take] at this
      omega
    · refine hc fun x _ y hy => ?_
      rw [List.drop_of_length_le (by omega)] at hy
      simp at hy
  · intro hc
    by_cases hle : n ≤ 0 + L.length
    · exact h.exact (by omega) hn hle hc
    · rw [h.all (Or.inr (by omega)), List.take_of_length_le (by omega)]

theorem Limited.givenOut {hidden R : List Hit} (h : Limited args.maxSize 0 L R)
    (hh : ∀ x ∈ hidden, args.lEnd = .inf ∧ x.1 < args.lKey) :
    GivenOut args hidden L R :=
  ⟨hh, h.sub, fun h0 => h.all (Or.inl h0), h.first, fun h0 => h.take_iff (Nat.pos_of_ne_zero h0)⟩

/-- `scan` on a tree without a root. -/
theorem run_scan_null (hroot : s.root ti = none) (hargs : ¬ args.Rejected) (out : ScanOut) : ∃ N, ∀ retry, ∀ fuel ≥ N,
    run (scan fuel retry ti args out) s = some ((.okRootIsNull, ⟨[], []⟩), s) := by
  refine ⟨1, fun retry fuel hf => ?_⟩
  obtain ⟨fuel, rfl⟩ : ∃ f, fuel = f + 1 := ⟨fuel - 1, by omega⟩
  rw [scan, if_neg (by exact hargs), scanRetry, run_loadRoot, hroot]
  rfl

theorem RefinesIn.unrooted (h : RefinesIn s ti A dead m) (hroot : s.root ti = none) (k : Key) : m.map.lookup k = none := by
  have hA : A [] = none := by
    by_contra hne
    exact h.root_iff.mp hne hroot
  refine h.lookup_none.mpr ?_
  rintro v ⟨t, ht, -⟩
  exact absurd (ht.symm.trans (h.holds.empty hA _)) (by simp)

theorem RefinesIn.scan_limited (h : RefinesIn s ti A dead m) (hargs : ¬ args.Rejected)
    (hstart : args.lEnd = .inf → args.lKey = []) {n : Nat} (hn : 0 < n) (out : ScanOut) :
    ∃ st o₀ oₙ, (∀ retry, Returns (fun fuel => Yakushima.scan fuel retry ti { args with maxSize := 0 } out) s (st, o₀) s) ∧
      (∀ retry, Returns (fun fuel => Yakushima.scan fuel retry ti { args with maxSize := n } out) s (st, oₙ) s) ∧
      (oₙ.tuples = o₀.tuples.take n ↔ m.Confines args n) := by
  by_cases hroot : s.root ti = none
  · obtain ⟨N, hN⟩ := run_scan_null hroot (by exact hargs : ¬ ({ args with maxSize := 0 } : ScanArgs).Rejected) out
    obtain ⟨N', hN'⟩ := run_scan_null hroot (by exact hargs : ¬ ({ args with maxSize := n } : ScanArgs).Rejected) out
    refine ⟨.okRootIsNull, ⟨[], []⟩, ⟨[], []⟩, fun retry => ⟨N, hN retry⟩, fun retry => ⟨N', hN' retry⟩,
      iff_of_true (by simp) fun x hx => ?_⟩
    obtain ⟨b, hb⟩ := Finmap.mem_iff.mp (Finmap.mem_keys.mp hx)
    exact absurd ((h.unrooted hroot x).symm.trans hb) (by simp)
  · obtain ⟨L, hL, hscan⟩ := h.scan hroot hargs hstart
    obtain ⟨o₀, hret₀, hlim₀⟩ := hscan 0 out
    obtain ⟨oₙ, hretₙ, hlimₙ⟩ := hscan n out
    refine ⟨.ok, o₀, oₙ, hret₀, hretₙ, ?_⟩
    rw [hlim₀.all (Or.inl rfl), hlimₙ.take_iff hn, hL.confined_iff hn]

end

/-- In every tree whose inline words have clear tag bits, a scan with a limit answers the first tuples of the scan
    without it just when no key of the interval after the last allowed one lies outside its layer. -/
theorem bounded_scan_prefix_iff {s : State} {ti : TreeId} {m : MapState} (h : Start ti s m) (calls : List PointCall)
    (hc : ∀ c ∈ calls, c.Clear) : ∃ as s₁ m₁,
    Returns (fun fuel => runAll (calls.map fun c => c.prog fuel (pure ()) ti)) s as s₁ ∧
      MapRun ValueArg.storedLen m calls as m₁ ∧
      ∀ args n out, ¬ ScanArgs.Rejected args → (args.lEnd = .inf → args.lKey = []) → 0 < n → ∃ st o₀ oₙ,
        Returns (fun fuel => scan fuel (pure ()) ti { args with maxSize := 0 } out) s₁ (st, o₀) s₁ ∧
        Returns (fun fuel => scan fuel (pure ()) ti { args with maxSize := n } out) s₁ (st, oₙ) s₁ ∧
        (oₙ.tuples = o₀.tuples.take n ↔ m₁.Confines args n) := by
  obtain ⟨A, hA⟩ := h.refinesIn
  obtain ⟨as, s₁, m₁, hret, hrun, B, dead, hB⟩ := hA.run calls hc
  refine ⟨as, s₁, m₁, hret (pure ()), hrun, fun args n out hargs hstart hn => ?_⟩
  obtain ⟨st, o₀, oₙ, h₀, hₙ, hiff⟩ := hB.scan_limited hargs hstart hn out
  exact ⟨st, o₀, oₙ, h₀ (pure ()), hₙ (pure ()), hiff⟩

/-- A `put` of the inline word 0. -/
def PointCall.putWord (k : Key) : PointCall := .put 0 ⟨k, .word 0, false⟩

theorem PointCall.putWords_representable (keys : List Key) : ∀ c ∈ keys.map putWord, c.Representable := by
  intro c hc
  obtain ⟨k, -, rfl⟩ := List.mem_map.mp hc
  exact (by decide : (0 : Size).toNat < 2 ^ 62)

theorem MapRun.putWords {len : ValueArg → Nat} {keys : List Key} {m m' : MapState} {as : List PointAnswer}
    (h : MapRun len m (keys.map PointCall.putWord) as m') : m'.map.keys = m.map.keys ∪ keys.toFinset ∧
    (keys ≠ [] → m'.rooted = true) := by
  induction keys generalizing m as with
  | nil =>
    cases h
    exact ⟨by simp, fun h => absurd rfl h⟩
  | cons k keys ih =>
    cases h with
    | cons hstep hrest =>
      have hone : ∀ {m₁ : MapState} {a : PointAnswer}, MapStep len m (.putWord k) a m₁ →
        m₁.map.keys = insert k m.map.keys ∧ m₁.rooted = true := by
        intro m₁ a hs
        cases hs with
        | putUnique token args b hu hb => simp at hu
        | put token args p node hu hp =>
          refine ⟨?_, rfl⟩
          ext x
          simp [Finmap.mem_keys, Finmap.mem_insert]
      obtain ⟨hk, hr⟩ := hone hstep
      obtain ⟨hks, hrs⟩ := ih hrest
      refine ⟨?_, fun _ => ?_⟩
      · rw [hks, hk]
        ext x
        simp only [Finset.mem_union, Finset.mem_insert, List.toFinset_cons]
        tauto
      · cases keys with
        | nil =>
          cases hrest
          exact hr
        | cons y ys => exact hrs (by simp)

/-- Seventeen short keys in two borders, and two keys that share a layer. -/
def sampleKeys : List Key :=
  ((List.range 17).map fun i => [UInt8.ofNat i]) ++ [[7, 0, 0, 0, 0, 0, 0, 0, 1], [7, 0, 0, 0, 0, 0, 0, 0, 2]]

/-- If the values fit their headers, a scan without a limit answers the bindings of its interval, in ascending order of
    their keys. -/
theorem scan_exact {s : State} {ti : TreeId} {m : MapState} (h : Start ti s m) (calls : List PointCall)
    (hc : ∀ c ∈ calls, c.Representable) :
    ∃ as s₁ m₁, Returns (fun fuel => runAll (calls.map fun c => c.prog fuel (pure ()) ti)) s as s₁ ∧
      MapRun ValueArg.len m calls as m₁ ∧
      (∀ k b, m₁.map.lookup k = some b → s₁.Keeps b) ∧ (s₁.root ti ≠ none ↔ m₁.rooted = true) ∧
      ∀ args out, s₁.root ti ≠ none → ¬ ScanArgs.Rejected args → args.maxSize = 0 → (args.lEnd = .inf → args.lKey = []) →
        ∃ out', Returns (fun fuel => scan fuel (pure ()) ti args out) s₁ (.ok, out') s₁ ∧
          Bindings ValueArg.len m₁ args out'.tuples := by
  obtain ⟨A, hA⟩ := h.refinesIn
  obtain ⟨as, s₁, m₁, hret, hrun, B, dead, hB⟩ := hA.run calls (PointCall.clear_of_representable hc)
  obtain ⟨hrun', hm⟩ := hrun.representable h.representable hc
  refine ⟨as, s₁, m₁, hret (pure ()), hrun', fun k b hb => (hB.stored k b hb).keeps (hm k b hb), hB.rooted_iff,
    fun args out hroot hargs hmax hstart => ?_⟩
  obtain ⟨L, hL, hscan⟩ := hB.scan hroot hargs hstart
  obtain ⟨out', hret', hlim⟩ := hscan 0 out
  have hall := hlim.all (Or.inl rfl)
  obtain ⟨lKey, lEnd, rKey, rEnd, maxSize, collect⟩ := args
  simp only at hmax
  subst hmax
  exact ⟨out', hret' (pure ()), hall ▸ hL.representable hm⟩

/-- The two keys of the second layer. -/
theorem scan_exact_sample : ∃ as s₁ out',
    Returns (fun fuel => runAll ((sampleKeys.map PointCall.putWord).map fun c => c.prog fuel (pure ()) 0))
      State.init as s₁ ∧
      Returns (fun fuel => scan fuel (pure ()) 0 ⟨[7, 0], .inclusive, [8], .exclusive, 0, false⟩ ⟨[], []⟩) s₁
        (.ok, out') s₁ ∧
      ∀ k, k ∈ out'.tuples.map (·.1) ↔ k = [7, 0, 0, 0, 0, 0, 0, 0, 1] ∨ k = [7, 0, 0, 0, 0, 0, 0, 0, 2] := by
  obtain ⟨as, s₁, m₁, hret, hrun, -, hroot, hscan⟩ := scan_exact (.null rfl : Start 0 State.init ⟨false, ∅⟩)
    (sampleKeys.map PointCall.putWord)
    (PointCall.putWords_representable sampleKeys)
  obtain ⟨out', hret', hb⟩ := hscan ⟨[7, 0], .inclusive, [8], .exclusive, 0, false⟩ ⟨[], []⟩
    (hroot.mpr (hrun.putWords.2 (by decide)))
    (by decide) rfl (fun h => by cases h)
  refine ⟨as, s₁, out', hret, hret', fun k => ?_⟩
  rw [hb.mem_keys, hrun.putWords.1]
  constructor
  · rintro ⟨hk, hin⟩
    have hall : ∀ k ∈ sampleKeys, ScanArgs.Contains ⟨[7, 0], .inclusive, [8], .exclusive, 0, false⟩ k →
        k = [7, 0, 0, 0, 0, 0, 0, 0, 1] ∨ k = [7, 0, 0, 0, 0, 0, 0, 0, 2] := by decide
    exact hall k (by simpa using hk) hin
  · rintro (rfl | rfl)
    · exact ⟨by decide, by decide⟩
    · exact ⟨by decide, by decide⟩

/-- The header that was overwritten gives a tuple the length 0, too. -/
theorem scan_reads_overwritten_header : ¬ ∀ (s : State) (ti : TreeId) (m : MapState), Start ti s m →
    ∀ calls : List PointCall,
    ∃ as s₁ m₁, Returns (fun fuel => runAll (calls.map fun c => c.prog fuel (pure ()) ti)) s as s₁ ∧
      MapRun ValueArg.len m calls as m₁ ∧
      ∀ args out, s₁.root ti ≠ none → ¬ ScanArgs.Rejected args → args.maxSize = 0 → (args.lEnd = .inf → args.lKey = []) →
        ∃ out', Returns (fun fuel => scan fuel (pure ()) ti args out) s₁ (.ok, out') s₁ ∧
          Bindings ValueArg.len m₁ args out'.tuples := by
  intro hall
  have hnull : Start 0 State.init ⟨false, ∅⟩ := .null rfl
  let args : ScanArgs := ⟨[], .inf, [], .inf, 0, false⟩
  obtain ⟨as, s₁, m₁, hret, hrun, hscan⟩ := hall _ _ _ hnull [overwriting]
  obtain ⟨A, hA⟩ := hnull.refinesIn
  obtain ⟨as', s₁', m₂, hret', hrun', B, dead, hB⟩ := hA.run [overwriting] (by decide)
  obtain ⟨-, rfl⟩ := hret.det (hret' (pure ()))
  obtain ⟨b, hb, hval⟩ := hrun.overwriting
  obtain ⟨b', hb', hval'⟩ := hrun'.overwriting
  have hroot : s₁.root 0 ≠ none := fun hn => absurd ((hB.unrooted hn [1]).symm.trans hb') (by simp)
  obtain ⟨out, hs, hL⟩ := hscan args ⟨[], []⟩ hroot (by decide) rfl fun _ => rfl
  obtain ⟨L, hL', hall'⟩ := hB.scan hroot (by decide : ¬ args.Rejected) fun _ => rfl
  obtain ⟨out', hs', hlim⟩ := hall' 0 ⟨[], []⟩
  obtain ⟨hout, -⟩ := hs.det (hs' (pure ()))
  obtain rfl : out = out' := congrArg Prod.snd hout
  rw [hlim.all (Or.inl rfl)] at hL
  -- The tuple has the length of the header, and no binding of the map has it.
  have hmem : ([1], b'.ptr, 0) ∈ L := (hL'.mem_iff _ _ _).mpr ⟨⟨trivial, trivial⟩, b', hb', rfl, by rw [hval']; rfl⟩
  obtain ⟨-, c, hc, -, hlen⟩ := (hL.mem_iff _ _ _).mp hmem
  obtain rfl := Option.some.inj (hb.symm.trans hc)
  rw [hval] at hlen
  exact absurd hlen (by decide)

/-- The limit holds inside a layer. -/
theorem bounded_scan_prefix_iff_sample : ∃ as s₁ st o₀ o₁,
    Returns (fun fuel => runAll ((sampleKeys.map PointCall.putWord).map fun c => c.prog fuel (pure ()) 0))
      State.init as s₁ ∧
      Returns (fun fuel => scan fuel (pure ()) 0 ⟨[7, 0], .inclusive, [7, 1], .inclusive, 0, false⟩ ⟨[], []⟩) s₁
        (st, o₀) s₁ ∧
      Returns (fun fuel => scan fuel (pure ()) 0 ⟨[7, 0], .inclusive, [7, 1], .inclusive, 1, false⟩ ⟨[], []⟩) s₁
        (st, o₁) s₁ ∧
      o₁.tuples = o₀.tuples.take 1 := by
  obtain ⟨as, s₁, m₁, hret, hrun, hscan⟩ := bounded_scan_prefix_iff (.null (s := State.init) rfl)
    (sampleKeys.map PointCall.putWord)
    (PointCall.clear_of_representable (PointCall.putWords_representable sampleKeys))
  obtain ⟨st, o₀, o₁, h₀, h₁, hiff⟩ := hscan ⟨[7, 0], .inclusive, [7, 1], .inclusive, 0, false⟩ 1 ⟨[], []⟩ (by decide)
    (fun h => by cases h)
    Nat.one_pos
  refine ⟨as, s₁, st, o₀, o₁, hret, h₀, h₁, hiff.mpr ?_⟩
  rw [MapState.Confines, hrun.putWords.1]
  decide +kernel

/-- The limit is missed by a key after one that is in a layer below. -/
theorem bounded_scan_exceeds : ¬ ∀ (s : State) (ti : TreeId) (m : MapState), Start ti s m →
    ∀ calls : List PointCall, ∃ as s₁,
    Returns (fun fuel => runAll (calls.map fun c => c.prog fuel (pure ()) ti)) s as s₁ ∧
      ∀ args n out, ¬ ScanArgs.Rejected args → (args.lEnd = .inf → args.lKey = []) → 0 < n → ∃ st o₀ oₙ,
        Returns (fun fuel => scan fuel (pure ()) ti { args with maxSize := 0 } out) s₁ (st, o₀) s₁ ∧
        Returns (fun fuel => scan fuel (pure ()) ti { args with maxSize := n } out) s₁ (st, oₙ) s₁ ∧
          oₙ.tuples = o₀.tuples.take n := by
  intro hall
  have hnull : Start 0 State.init ⟨false, ∅⟩ := .null rfl
  obtain ⟨as, s₁, hret, hscan⟩ := hall _ _ _ hnull ([[97, 97, 97, 97, 97, 97, 97, 97, 98], [98]].map PointCall.putWord)
  obtain ⟨A, hA⟩ := hnull.refinesIn
  obtain ⟨as', s₁', m₁, hret', hrun, B, dead, hB⟩ :=
    hA.run ([[97, 97, 97, 97, 97, 97, 97, 97, 98], [98]].map PointCall.putWord)
    (PointCall.clear_of_representable (PointCall.putWords_representable _))
  obtain ⟨-, rfl⟩ := hret.det (hret' (pure ()))
  obtain ⟨st, o₀, o₁, h₀, h₁, heq⟩ := hscan ⟨[], .inf, [], .inf, 0, false⟩ 1 ⟨[], []⟩ (by decide) (fun _ => rfl) Nat.one_pos
  obtain ⟨st', p₀, p₁, g₀, g₁, hiff⟩ :=
    hB.scan_limited (by decide : ¬ (⟨[], .inf, [], .inf, 0, false⟩ : ScanArgs).Rejected) (fun _ => rfl) Nat.one_pos ⟨[], []⟩
  obtain ⟨hst, -⟩ := h₀.det (g₀ (pure ()))
  obtain ⟨hst', -⟩ := h₁.det (g₁ (pure ()))
  simp only [Prod.mk.injEq] at hst hst'
  rw [hst.2, hst'.2, hiff] at heq
  have hkeys : m₁.map.keys = {[97, 97, 97, 97, 97, 97, 97, 97, 98], [98]} := by
    rw [hrun.putWords.1]
    simp
  have := heq [97, 97, 97, 97, 97, 97, 97, 97, 98] (by rw [hkeys]; decide) [98] (by rw [hkeys]; decide) (by decide)
    (by decide) (by decide)
    (by rw [hkeys]; decide)
  exact absurd this (by decide)

end Yakushima
