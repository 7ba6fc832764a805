import Mathlib.Data.List.Permutation
import Yakushima.Theorems.Effect
import Yakushima.Spec.Map

/-! # A tree refines a finite map -/

namespace Yakushima
open M Permutation

/-- The memory holds the value of a binding under its pointer: the bytes, their number and the alignment they lie at. -/
def State.Keeps (s : State) : Binding → Prop
  | ⟨.word w, .word w'⟩ => w.val = w'.toNat
  | ⟨.heap v, .heap bytes align⟩ => ∃ x, s.block v = some x ∧ x.body = bytes ∧ x.len = bytes.length ∧ x.align = max align 8
  | _ => False

/-- The pointer of a binding leads to what `create_value` made of the value, whether the header has room for it or not. -/
def State.Stored (s : State) : Binding → Prop
  | ⟨.word w, .word w'⟩ => w.val = w'.toNat
  | ⟨.heap v, .heap bytes align⟩ => s.block v = some (blockOf bytes align)
  | _ => False

/-- The length that the header of a value records. -/
def ValueArg.storedLen : ValueArg → Nat
  | .word _ => 8
  | .heap bytes align => (blockOf bytes align).len

/-- The values of a map have clear tag bits and fit their headers. -/
def MapState.Representable (m : MapState) : Prop := ∀ k b, m.map.lookup k = some b → b.value.Representable

/-- The tree `ti` holds the bindings of the map. -/
structure RefinesIn (s : State) (ti : TreeId) (A : Forest) (dead : NodeId → Prop) (m : MapState) : Prop where
  holds : Holds s ti A dead
  rooted : A [] = none ↔ m.rooted = false
  binds : ∀ k v, A.Binds k v ↔ ∃ arg, m.map.lookup k = some ⟨v, arg⟩
  stored : ∀ k b, m.map.lookup k = some b → s.Stored b

/-- The tree `ti` refines the map. -/
def Refines (s : State) (ti : TreeId) (m : MapState) : Prop := ∃ A dead, RefinesIn s ti A dead m

/-! ### Values that fit their headers -/

section
variable {bytes : List UInt8} {align : Nat} {arg : ValueArg} {c : PointCall} {cs : List PointCall}
  {as : List PointAnswer} {a : PointAnswer} {m m' : MapState}

theorem blockOf_of_representable (h : (ValueArg.heap bytes align).Representable) :
    blockOf bytes align = ⟨bytes.length, max align 8, true, bytes⟩ := by
  obtain ⟨hlen, halign⟩ : bytes.length < 2 ^ 32 ∧ align < 2 ^ 16 := h
  have hstored : (if align < 8 then 8 else align) % 2 ^ 16 = max align 8 := by lia
  have hge : 8 ≤ max align 8 := le_max_right _ _
  simp only [blockOf, hstored, if_pos hge, Nat.mod_eq_of_lt hlen]

theorem ValueArg.Representable.clear (h : arg.Representable) : arg.Clear := by
  cases arg with
  | word w => exact h
  | heap bytes align => trivial

theorem ValueArg.Representable.storedLen (h : arg.Representable) : arg.storedLen = arg.len := by
  cases arg with
  | word w => rfl
  | heap bytes align => exact congrArg Block.len (blockOf_of_representable h)

theorem PointCall.Representable.clear (h : c.Representable) : c.Clear := by
  cases c with
  | put token args => exact ValueArg.Representable.clear h
  | remove token key => trivial
  | get key => trivial

theorem PointCall.clear_of_representable (h : ∀ c ∈ cs, PointCall.Representable c) : ∀ c ∈ cs, PointCall.Clear c :=
  fun c hc => (h c hc).clear

theorem MapState.Representable.empty {rooted : Bool} : MapState.Representable ⟨rooted, ∅⟩ := fun k b hb => by simp at hb

/-- With values that fit their headers the lengths in the headers are the lengths of the values. -/
theorem MapStep.representable (h : MapStep ValueArg.storedLen m c a m') (hm : m.Representable) (hc : c.Representable) :
    MapStep ValueArg.len m c a m' ∧ m'.Representable := by
  cases h with
  | getBound key b hb =>
    rw [(hm key b hb).storedLen]
    exact ⟨.getBound key b hb, hm⟩
  | getUnbound key hn => exact ⟨.getUnbound key hn, hm⟩
  | putUnique token args b hu hb => exact ⟨.putUnique token args b hu hb, hm⟩
  | put token args p node hu hp =>
    refine ⟨.put token args p node hu hp, fun k b hb => ?_⟩
    by_cases hk : k = args.key
    · subst hk
      simp only [Finmap.lookup_insert, Option.some.injEq] at hb
      exact hb ▸ hc
    · simp only [Finmap.lookup_insert_of_ne _ hk] at hb
      exact hm k b hb
  | removeBound token key b hb =>
    refine ⟨.removeBound token key b hb, fun k x hx => ?_⟩
    by_cases hk : k = key
    · subst hk
      simp at hx
    · simp only [Finmap.lookup_erase_ne hk] at hx
      exact hm k x hx
  | removeUnbound token key hn => exact ⟨.removeUnbound token key hn, hm⟩

theorem MapRun.representable (h : MapRun ValueArg.storedLen m cs as m') (hm : m.Representable)
    (hc : ∀ c ∈ cs, PointCall.Representable c) :
    MapRun ValueArg.len m cs as m' ∧ m'.Representable := by
  induction h with
  | nil m => exact ⟨.nil m, hm⟩
  | cons hstep _ ih =>
    obtain ⟨hstep', hm'⟩ := hstep.representable hm (hc _ List.mem_cons_self)
    obtain ⟨hrun, hend⟩ := ih hm' fun c h => hc c (List.mem_cons_of_mem _ h)
    exact ⟨.cons hstep' hrun, hend⟩

end

section
variable {s s' : State} {ti : TreeId} {A : Forest} {dead : NodeId → Prop} {m : MapState} {retry : M Unit}

theorem State.Stored.fits {b : Binding} (h : s.Stored b) : b.Fits := by
  obtain ⟨p, arg⟩ := b
  cases p with
  | word w =>
    cases arg with
    | word w' => exact h
    | heap bytes align => exact h
  | heap v =>
    cases arg with
    | word w' => exact h
    | heap bytes align => trivial

theorem State.Stored.lenOf {b : Binding} (h : s.Stored b) : s.lenOf b.ptr = b.value.storedLen := by
  obtain ⟨p, arg⟩ := b
  cases p with
  | word w =>
    cases arg with
    | word w' => rfl
    | heap bytes align => exact h.elim
  | heap v =>
    cases arg with
    | word w' => exact h.elim
    | heap bytes align =>
      have hb : s.block v = some (blockOf bytes align) := h
      simp only [State.lenOf, hb, Option.map_some, Option.getD_some, ValueArg.storedLen]

/-- A value that fits its header is kept as it was given. -/
theorem State.Stored.keeps {b : Binding} (h : s.Stored b) (hr : b.value.Representable) : s.Keeps b := by
  obtain ⟨p, arg⟩ := b
  cases p with
  | word w =>
    cases arg with
    | word w' => exact h
    | heap bytes align => exact h
  | heap v =>
    cases arg with
    | word w' => exact h
    | heap bytes align => exact ⟨_, Eq.trans h (congrArg some (blockOf_of_representable hr)), rfl, rfl, rfl⟩

/-- The values of the other keys stay. -/
theorem State.Stored.changed {key k : Key} {b : Binding} (h : s.Stored b) (H : Holds s ti A dead)
    (hc : Changed s s' ti A key) (hb : A.Binds k b.ptr) (hne : k ≠ key) : s'.Stored b := by
  obtain ⟨p, arg⟩ := b
  cases p with
  | word w =>
    cases arg with
    | word w' => exact h
    | heap bytes align => exact h
  | heap v =>
    cases arg with
    | word w' => exact h
    | heap bytes align =>
      have hlt := (H.blocks hb rfl).1
      refine (hc.blocks v hlt fun hkey => hne ?_).trans h
      obtain ⟨hp, he⟩ := H.owned hb hkey rfl rfl
      rw [Entry.mk.injEq] at he
      exact place_inj hp he.1

theorem RefinesIn.lookup_none (h : RefinesIn s ti A dead m) {key : Key} : m.map.lookup key = none ↔
    ∀ v, ¬ A.Binds key v := by
  constructor
  · intro hn v hv
    obtain ⟨arg, ha⟩ := (h.binds key v).mp hv
    exact absurd (hn.symm.trans ha) (by simp)
  · intro hno
    cases hl : m.map.lookup key with
    | none => rfl
    | some b => exact absurd ((h.binds key b.ptr).mpr ⟨b.value, hl⟩) (hno b.ptr)

/-- The heap blocks that keys are bound to are marked as owned. -/
def OwnsBlocks (s : State) (A : Forest) : Prop := ∀ key v x, A.Binds key (.heap v) → s.block v = some x →
    x.needDelete = true

theorem RefinesIn.ownsBlocks (h : RefinesIn s ti A dead m) (hm : m.Representable) : OwnsBlocks s A := by
  intro key v x hb hx
  obtain ⟨arg, ha⟩ := (h.binds key _).mp hb
  have hst := h.stored key _ ha
  cases arg with
  | word w => exact hst.elim
  | heap bytes align =>
    have hblock : s.block v = some (blockOf bytes align) := hst
    obtain rfl := Option.some.inj (hblock.symm.trans hx)
    rw [blockOf_of_representable (hm key _ ha)]

/-- One call on the tree is one call on the map. -/
theorem RefinesIn.step (h : RefinesIn s ti A dead m) {c : PointCall} (hc : c.Clear) :
    ∃ a s' m' A' dead', (∀ retry, Returns (fun fuel => c.prog fuel retry ti) s a s') ∧
    MapStep ValueArg.storedLen m c a m' ∧ RefinesIn s' ti A' dead' m' ∧ (∀ n, dead n → dead' n) ∧
      Changed s s' ti A c.key := by
  have H := h.holds
  cases c with
  | get key =>
    obtain ⟨r, N, hN, hr⟩ := run_get H key
    refine ⟨.get r, s, m, A, dead, fun retry => Returns.map ⟨N, fun fuel hf => hN retry fuel hf⟩ _, ?_, h, fun _ hn => hn,
      Changed.refl s ti A key⟩
    rcases hr with ⟨v, hv, rfl⟩ | ⟨hno, rfl⟩
    · obtain ⟨arg, ha⟩ := (h.binds key v).mp hv
      rw [(h.stored key _ ha).lenOf]
      exact .getBound key ⟨v, arg⟩ ha
    · exact .getUnbound key (h.lookup_none.mpr hno)
  | remove token key =>
    obtain ⟨r, s', N, hN, hr⟩ := run_remove H token key
    obtain ⟨A', dead', H', hdead, hroot, hbinds, hst⟩ := hr.holds H
    have hch := hr.changed H
    refine ⟨.remove r, s', ?_⟩
    have hret : ∀ retry, Returns (fun fuel => (PointCall.remove token key).prog fuel retry ti) s
      (.remove r) s' := fun retry =>
      Returns.map ⟨N, fun fuel hf => hN retry fuel hf⟩ _
    rcases hst with ⟨rfl, v, hv⟩ | ⟨rfl, hno, rfl⟩
    · obtain ⟨arg, ha⟩ := (h.binds key v).mp hv
      refine ⟨⟨m.rooted, m.map.erase key⟩, A', dead', hret, .removeBound token key _ ha,
        ⟨H', hroot.trans h.rooted, fun k w => ?_, fun k b hb => ?_⟩, hdead,
        hch⟩
      · rw [hbinds k w, h.binds k w]
        by_cases hk : k = key
        · subst hk
          simp
        · simp [hk, Finmap.lookup_erase_ne hk]
      · have hk : k ≠ key := by
          rintro rfl
          simp at hb
        simp only [Finmap.lookup_erase_ne hk] at hb
        exact (h.stored k b hb).changed H hch ((h.binds k b.ptr).mpr ⟨b.value, hb⟩) hk
    · refine ⟨m, A, dead, hret, ?_, h, fun _ hn => hn, hch⟩
      have hroot' : (if A [] = none then Status.okRootIsNull else .okNotFound) = if m.rooted then .okNotFound
        else .okRootIsNull := by
        by_cases hA : A [] = none
        · rw [if_pos hA, h.rooted.mp hA]
          rfl
        · have : m.rooted = true := by simpa using (not_congr h.rooted).mp hA
          rw [if_neg hA, this]
          rfl
      rw [hroot']
      exact .removeUnbound token key (h.lookup_none.mpr hno)
  | put token args =>
    obtain ⟨r, s', N, hN, hr⟩ := run_put H token args hc
    obtain ⟨A', H', hst⟩ := hr.holds H
    have hch := hr.changed H
    refine ⟨.put r, s', ?_⟩
    have hret : ∀ retry, Returns (fun fuel => (PointCall.put token args).prog fuel retry ti) s (.put r) s' := fun retry =>
      Returns.map ⟨N, fun fuel hf => hN retry fuel hf⟩ _
    rcases hst with ⟨⟨node, rfl⟩, hun, hre, hnew⟩ | ⟨rfl, hu, ⟨v, hv⟩, rfl, rfl⟩
    · have hkeep : s'.Stored ⟨s.createdValue args.value, args.value⟩ := by
        cases harg : args.value with
        | word w =>
          have hlt : args.value.Clear := hc
          rw [harg] at hlt
          exact Nat.mod_eq_of_lt hlt
        | heap bytes align => exact hnew bytes align harg
      refine ⟨⟨true, m.map.insert args.key ⟨s.createdValue args.value, args.value⟩⟩, A', dead, hret,
        .put token args _ node (fun hu => h.lookup_none.mpr (hun hu)) hkeep.fits,
          ⟨H', ?_, fun k w => ?_, fun k b hb => ?_⟩, fun _ hn => hn,
        hch⟩
      · have hbound : A'.Binds args.key (s.createdValue args.value) := (hre _ _).mpr (Or.inl ⟨rfl, rfl⟩)
        obtain ⟨t, ht, -⟩ := hbound
        simp only [Bool.true_eq_false, iff_false]
        intro hA
        exact absurd (ht.symm.trans (H'.empty hA _)) (by simp)
      · rw [hre k w, h.binds k w]
        by_cases hk : k = args.key
        · subst hk
          simp [eq_comm]
        · simp [hk, Finmap.lookup_insert_of_ne _ hk]
      · by_cases hk : k = args.key
        · subst hk
          simp only [Finmap.lookup_insert, Option.some.injEq] at hb
          exact hb ▸ hkeep
        · simp only [Finmap.lookup_insert_of_ne _ hk] at hb
          exact (h.stored k b hb).changed H hch ((h.binds k b.ptr).mpr ⟨b.value, hb⟩) hk
    · obtain ⟨arg, ha⟩ := (h.binds args.key v).mp hv
      exact ⟨m, A', dead, hret, .putUnique token args _ hu ha, h, fun _ hn => hn, hch⟩

/-- A sequence of calls on the tree is the same sequence on the map. -/
theorem RefinesIn.run (h : RefinesIn s ti A dead m) (calls : List PointCall) (hc : ∀ c ∈ calls, c.Clear) : ∃ as s' m',
    (∀ retry, Returns (fun fuel => runAll (calls.map fun c => c.prog fuel retry ti)) s as s') ∧
      MapRun ValueArg.storedLen m calls as m' ∧ Refines s' ti m' := by
  induction calls generalizing s A dead m with
  | nil => exact ⟨[], s, m, fun _ => ⟨0, fun _ _ => rfl⟩, .nil m, A, dead, h⟩
  | cons c calls ih =>
    obtain ⟨a, s₁, m₁, A₁, dead₁, hret, hstep, h₁, -, -⟩ := h.step (hc c List.mem_cons_self)
    obtain ⟨as, s₂, m₂, hrets, hrun, h₂⟩ := ih h₁ fun c hin => hc c (List.mem_cons_of_mem _ hin)
    refine ⟨a :: as, s₂, m₂, fun retry => ?_, .cons hstep hrun, h₂⟩
    exact (hret retry).bind
      (q := fun a fuel => runAll (calls.map fun c => c.prog fuel retry ti) >>= fun as => pure (a :: as))
      ((hrets retry).map _)

/-! ### Where a tree starts -/

/-- A tree at its start: it has no root, or the empty root border that `create_storage` makes. -/
inductive Start (ti : TreeId) : State → MapState → Prop where
  | null {s : State} (h : s.root ti = none) : Start ti s ⟨false, ∅⟩
  | created (s : State) : Start ti (s.emptyTree ti) ⟨true, ∅⟩

theorem holds_null (h : s.root ti = none) : Holds s ti (fun _ => none) fun _ => False := by
  have hno : ∀ {π e}, ¬ Forest.Has (fun _ => none) π e := by
    rintro π e ⟨t, ht, -⟩
    exact absurd ht (by simp)
  refine ⟨⟨fun sl π => ?_, fun ht => absurd ht (by simp), fun ht => absurd ht (by simp), fun ht => absurd ht (by simp), 0,
    fun π t ht => absurd ht (by simp)⟩, h, fun ht => absurd ht (by simp), fun ht => absurd ht (by simp),
      fun ht => absurd ht (by simp),
    fun x hx => hx.elim, fun he => absurd he hno, fun he => absurd he hno⟩
  simp

theorem Start.refinesIn (h : Start ti s m) : ∃ A, RefinesIn s ti A (fun _ => False) m := by
  cases h with
  | null h =>
    refine ⟨fun _ => none, holds_null h, by simp, fun k v => ?_, fun k b hb => by simp at hb⟩
    simp [Forest.Binds, Forest.Has]
  | created s =>
    refine ⟨Forest.single s.nextNode, holds_emptyTree s ti fun _ h => h.elim, ?_, fun k v => ?_,
      fun k b hb => by simp at hb⟩
    · simp [Forest.single]
    · simp only [Finmap.lookup_empty, reduceCtorEq, exists_false, iff_false]
      exact Holds.single_not_has

theorem Start.representable (h : Start ti s m) : m.Representable := by
  cases h with
  | null h => exact .empty
  | created s => exact .empty

/-- With values that fit their headers every sequence of `put`, `remove` and `get` on a tree answers what a finite map
    from byte strings to values answers, and the pointer of every binding leads to the bytes that were put. -/
theorem calls_refine_map (h : Start ti s m) (calls : List PointCall) (hc : ∀ c ∈ calls, c.Representable) : ∃ as s' m',
    Returns (fun fuel => runAll (calls.map fun c => c.prog fuel (pure ()) ti)) s as s' ∧ MapRun ValueArg.len m calls as m' ∧
      ∀ k b, m'.map.lookup k = some b → s'.Keeps b := by
  obtain ⟨A, hA⟩ := h.refinesIn
  obtain ⟨as, s', m', hret, hrun, B, dead, hB⟩ := hA.run calls (PointCall.clear_of_representable hc)
  obtain ⟨hrun', hm'⟩ := hrun.representable h.representable hc
  exact ⟨as, s', m', hret (pure ()), hrun', fun k b hb => (hB.stored k b hb).keeps (hm' k b hb)⟩

/-- Seventeen short keys, for which a border splits, a key of two layers with a heap value that is overwritten, and a
    removed key. -/
def sampleCalls : List PointCall :=
  ((List.range 17).map fun i => .put 0 ⟨[UInt8.ofNat i], .word (.ofNat 64 i), false⟩) ++
    [.put 0 ⟨[1, 2, 3, 4, 5, 6, 7, 8, 9], .heap [7, 7] 16, true⟩, .put 0 ⟨[1, 2, 3, 4, 5, 6, 7, 8, 9], .heap [8] 8, false⟩,
      .remove 0 [4], .get [3]]

theorem calls_refine_map_sample : ∃ as s' m',
    Returns (fun fuel => runAll (sampleCalls.map fun c => c.prog fuel (pure ()) 0)) State.init as s' ∧
    MapRun ValueArg.len ⟨false, ∅⟩ sampleCalls as m' ∧ ∀ k b, m'.map.lookup k = some b → s'.Keeps b :=
  calls_refine_map (.null rfl) sampleCalls (by decide)

theorem MapStep.get_len {len : ValueArg → Nat} {m' : MapState} {a : PointAnswer} {key : Key} {b : Binding}
    {p : ValuePtr} {n : Nat} (h : MapStep len m (.get key) a m') (ha : a = .get (.ok, some (p, n)))
    (hb : m.map.lookup key = some b) : n = len b.value := by
  cases h with
  | getBound key b' hb' =>
    obtain rfl : b' = b := Option.some.inj (hb'.symm.trans hb)
    simp only [PointAnswer.get.injEq, Prod.mk.injEq, Option.some.injEq, true_and] at ha
    exact ha.2.symm
  | getUnbound key hn => simp at ha

/-- A value of eight zero bytes whose alignment its header has no room for. -/
def overwriting : PointCall := .put 0 ⟨[1], .heap (List.replicate 8 0) (2 ^ 16), false⟩

theorem MapRun.overwriting {len : ValueArg → Nat} {m m' : MapState} {as : List PointAnswer}
    (h : MapRun len m [overwriting] as m') :
    ∃ b, m'.map.lookup [1] = some b ∧ b.value = .heap (List.replicate 8 0) (2 ^ 16) := by
  cases h with
  | cons hstep hrest =>
    cases hrest
    cases hstep with
    | put token args p node hu hp => exact ⟨_, Finmap.lookup_insert _, rfl⟩
    | putUnique token args b hu hb => simp at hu

/-- The body of a value that is aligned to 2^16 bytes is copied over its header: `get` answers the length 0. -/
theorem overwritten_header_is_read : ¬ ∀ (s : State) (ti : TreeId) (m : MapState), Start ti s m →
    ∀ calls : List PointCall, ∃ as s' m',
    Returns (fun fuel => runAll (calls.map fun c => c.prog fuel (pure ()) ti)) s as s' ∧ MapRun ValueArg.len m calls as m' ∧
      ∀ k b, m'.map.lookup k = some b → s'.Keeps b := by
  intro hall
  obtain ⟨as, s', m', hret, hrun, -⟩ := hall State.init 0 ⟨false, ∅⟩ (.null rfl) [overwriting, .get [1]]
  have has : as = [.put ⟨.ok, some (.value (.heap 0)), some 0⟩, .get (.ok, some (.heap 0, 0))] :=
    hret.eval (fun r => r.1) (k := 64) fun n => by cbv
  subst has
  cases hrun with
  | cons hput hrest =>
    cases hrest with
    | cons hget hnil =>
      cases hput with
      | put token args p node hu hp =>
        have hlen := hget.get_len rfl (Finmap.lookup_insert _)
        exact absurd hlen (by decide)

end
end Yakushima
