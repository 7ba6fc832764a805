import Yakushima.Theorems.Interval

/-! # Trees at rest

Between two calls the version words of a tree show no operation at work, and so no call of one thread notices a
concurrent operation, and none meets a state that the source takes for an error. -/

namespace Yakushima
open M Permutation

/-- `x` is a node of the tree. -/
def InTree (s : State) (ti : TreeId) (x : NodeId) : Prop := ∃ first r, LayerRoot s ti first r ∧ InLayer s r x

/-- A live slot of a border of the tree links to `x`. -/
def LinkedFrom (s : State) (ti : TreeId) (x : NodeId) : Prop :=
  ∃ b bd i, InTree s ti b ∧ s.node b = some bd ∧ bd.kind = .border ∧ i ∈ slotsOf bd.permutation ∧ bd.lv i = .link x

/-- The version words of a tree at rest. -/
structure CleanVersions (s : State) (ti : TreeId) : Prop where
  idle : ∀ x nd, InTree s ti x → s.node x = some nd →
    nd.version.locked = false ∧ nd.version.insertingDeleting = false ∧ nd.version.splitting = false
  border : ∀ x nd, InTree s ti x → s.node x = some nd → (nd.version.border = true ↔ nd.kind = .border)
  root : ∀ x nd, InTree s ti x → s.node x = some nd → (nd.version.root = true ↔ s.root ti = some x ∨ LinkedFrom s ti x)
  deleted : ∀ x nd, InTree s ti x → s.node x = some nd → nd.version.deleted = true →
    s.root ti = some x ∧ nd.kind = .border ∧ getCnk nd.permutation = 0

section
variable {s : State} {ti : TreeId} {A : Forest} {dead : NodeId → Prop} {m : MapState} {x : NodeId}

/-- A node of the tree, in its layer. -/
theorem Holds.inTree (H : Holds s ti A dead) (h : InTree s ti x) : ∃ π c w, A π = some (Ctx.plug c w) ∧ w.id = x := by
  obtain ⟨first, r, hr, hx⟩ := h
  obtain ⟨π, t, ht, rfl, -⟩ := H.layerRoot hr
  obtain ⟨c, w, rfl, rfl⟩ := LayerOk.inLayer (c := []) (H.layers ht) hx
  exact ⟨π, c, w, ht, rfl⟩

theorem LayerRoot.linked {first : Bool} (h : LayerRoot s ti first x) : s.root ti = some x ∨ LinkedFrom s ti x := by
  cases h with
  | first h => exact Or.inl h
  | next h hb hn hk hi hl => exact Or.inr ⟨_, _, _, ⟨_, _, h, hb⟩, hn, hk, hi, hl⟩

theorem layerRoot_of_linked (h : s.root ti = some x ∨ LinkedFrom s ti x) : ∃ first, LayerRoot s ti first x := by
  rcases h with h | ⟨b, bd, i, ⟨first, r, hr, hb⟩, hn, hk, hi, hl⟩
  · exact ⟨true, .first h⟩
  · exact ⟨false, .next hr hb hn hk hi hl⟩

theorem Holds.cleanVersions (H : Holds s ti A dead) : CleanVersions s ti := by
  refine ⟨fun x nd hx hn => ?_, fun x nd hx hn => ?_, fun x nd hx hn => ⟨fun hroot => ?_, fun hlink => ?_⟩,
    fun x nd hx hn hdel => ?_⟩
  · obtain ⟨π, c, w, ht, rfl⟩ := H.inTree hx
    have hst := Version.stable_iff.mp ((H.layers ht).node_eq hn).stable
    exact ⟨hst.2.1, hst.1, hst.2.2⟩
  · obtain ⟨π, c, w, ht, rfl⟩ := H.inTree hx
    have hok := (H.layers ht).node_eq hn
    cases w with
    | border b es => exact iff_of_true hok.members.2.1 hok.members.1
    | interior i f r =>
      obtain ⟨hk, hb, -⟩ := hok.members
      simp [hk, hb]
  · obtain ⟨first, r, hr, hxr⟩ := hx
    obtain ⟨π, t, ht, rfl, -⟩ := H.layerRoot hr
    obtain ⟨c, w, rfl, rfl⟩ := LayerOk.inLayer (c := []) (H.layers ht) hxr
    have hok := (H.layers ht).node_eq hn
    have hc : c = [] := by
      cases c with
      | nil => rfl
      | cons f c => exact absurd (hok.root.symm.trans hroot) (by simp [Ctx.isRoot])
    subst hc
    exact hr.linked
  · obtain ⟨first, hr⟩ := layerRoot_of_linked hlink
    obtain ⟨π, t, ht, rfl, -⟩ := H.layerRoot hr
    exact (LayerOk.node_eq (c := []) (H.layers ht) hn).root
  · obtain ⟨π, c, w, ht, rfl⟩ := H.inTree hx
    have hok := (H.layers ht).node_eq hn
    cases w with
    | interior i f r =>
      have hused : nd.version.deleted = false := hok.members.2.2.1
      simp [hdel] at hused
    | border b es =>
      have hes : es = [] := by
        by_contra hne
        have hused : nd.version.deleted = false := hok.members.2.2.1 hne
        simp [hdel] at hused
      subst hes
      refine ⟨?_, hok.members.1, cnk_eq_length hok.toNodeFits⟩
      obtain rfl := (H.layers ht).ctx_eq_nil
      cases π with
      | nil =>
        rw [H.root, ht]
        rfl
      | cons sl π => exact absurd rfl (H.ok.nonempty ht)

/-- `find_border` from a layer root. -/
theorem Holds.findBorder_ok (H : Holds s ti A dead) {first : Bool} {r : NodeId} (hr : LayerRoot s ti first r)
    (slice : KeySlice) (length : Nat) :
    ∃ b bd, (∀ retry, Returns (fun fuel => findBorder fuel retry (some r) slice length fuel .ok) s
      (.ok, some b, bd.version) s) ∧
      s.node b = some bd ∧ bd.kind = .border ∧ InTree s ti b := by
  obtain ⟨π, t, ht, rfl, -⟩ := H.layerRoot hr
  obtain ⟨c, b, es, bd, rfl, -, hb, N, hN⟩ := run_findBorder (H.layers ht) slice length
  refine ⟨b, bd, fun retry => ⟨N, hN retry⟩, hb, ((H.layers ht).node_eq (u := .border b es) hb).members.1, first, _, hr, ?_⟩
  exact LayerOk.inLayer_plug (u := .border b es) (H.layers ht)

/-! ### Runs of calls -/

/-- A `scan` answers and changes nothing. -/
theorem RefinesIn.scan_returns (h : RefinesIn s ti A dead m) (args : ScanArgs) (out : ScanOut) : ∃ r, ∀ retry,
    Returns (fun fuel => Yakushima.scan fuel retry ti args out) s r s := by
  by_cases hargs : args.Rejected
  · refine ⟨(.errBadUsage, out), fun retry => ⟨0, fun fuel _ => ?_⟩⟩
    show Yakushima.run (Yakushima.scan fuel retry ti args out) s = _
    unfold Yakushima.scan
    rw [if_pos (by exact hargs)]
    rfl
  · by_cases hroot : s.root ti = none
    · obtain ⟨N, hN⟩ := run_scan_null hroot hargs out
      exact ⟨_, fun retry => ⟨N, hN retry⟩⟩
    · obtain ⟨D, hD⟩ := h.holds.ok.bounded
      obtain ⟨N, hN⟩ := run_scan h.holds (h.root_iff.mpr hroot) hD args hargs out
      exact ⟨_, fun retry => ⟨N, hN retry⟩⟩

/-- A call of any operation answers the same whatever a retry would do, and reports no error. -/
theorem RefinesIn.call (h : RefinesIn s ti A dead m) {c : Call} (hc : c.Clear) : ∃ a s' m' A' dead',
    (∀ retry, Returns (fun fuel => c.prog fuel retry ti) s a s') ∧ RefinesIn s' ti A' dead' m' ∧ s'.log = s.log := by
  cases c with
  | point c =>
    obtain ⟨a, s', m', A', dead', hret, -, h', -, hch⟩ := h.step (c := c) hc
    exact ⟨.point a, s', m', A', dead', fun retry => (hret retry).map _, h', hch.log⟩
  | scan args =>
    obtain ⟨r, hr⟩ := h.scan_returns args ⟨[], []⟩
    exact ⟨.scan r, s, m, A, dead, fun retry => (hr retry).map _, h, rfl⟩

theorem RefinesIn.callRun (h : RefinesIn s ti A dead m) (calls : List Call) (hc : ∀ c ∈ calls, c.Clear) :
    ∃ as s' m' A' dead', (∀ retry,
      Returns (fun fuel => runAll (calls.map fun c => c.prog fuel retry ti)) s as s') ∧ RefinesIn s' ti A' dead' m' ∧
        s'.log = s.log := by
  induction calls generalizing s A dead m with
  | nil => exact ⟨[], s, m, A, dead, fun _ => ⟨0, fun _ _ => rfl⟩, h, rfl⟩
  | cons c calls ih =>
    obtain ⟨a, s₁, m₁, A₁, dead₁, hret, h₁, hlog₁⟩ := h.call (hc c List.mem_cons_self)
    obtain ⟨as, s₂, m₂, A₂, dead₂, hrets, h₂, hlog₂⟩ := ih h₁ fun c hin => hc c (List.mem_cons_of_mem _ hin)
    refine ⟨a :: as, s₂, m₂, A₂, dead₂, fun retry => ?_, h₂, hlog₂.trans hlog₁⟩
    exact (hret retry).bind
      (q := fun a fuel => runAll (calls.map fun c => c.prog fuel retry ti) >>= fun as => pure (a :: as))
      ((hrets retry).map _)

end

/-- After every sequence of calls whose inline words have clear tag bits the version words of the tree are at rest,
    `find_border` reaches a border from every layer root, and every such call answers the same whatever is put in the place
    of a retry. -/
theorem calls_leave_versions_clean {s : State} {ti : TreeId} {m : MapState} (h : Start ti s m) (calls : List Call)
    (hc : ∀ c ∈ calls, c.Clear) :
    ∃ as s₁, (∀ retry, Returns (fun fuel => runAll (calls.map fun c => c.prog fuel retry ti)) s as s₁) ∧
      CleanVersions s₁ ti ∧
      (∀ first r slice length, LayerRoot s₁ ti first r → ∃ b bd,
        (∀ retry, Returns (fun fuel => findBorder fuel retry (some r) slice length fuel .ok) s₁
          (.ok, some b, bd.version) s₁) ∧
          s₁.node b = some bd ∧ bd.kind = .border ∧ InTree s₁ ti b) ∧
      ∀ c : Call, c.Clear → ∃ a s₂, ∀ retry, Returns (fun fuel => c.prog fuel retry ti) s₁ a s₂ := by
  obtain ⟨A, hA⟩ := h.refinesIn
  obtain ⟨as, s₁, m₁, B, dead, hret, hB, -⟩ := hA.callRun calls hc
  refine ⟨as, s₁, hret, hB.holds.cleanVersions, fun first r slice length hr => hB.holds.findBorder_ok hr slice length,
    fun c hcl => ?_⟩
  obtain ⟨a, s₂, -, -, -, hret', -⟩ := hB.call hcl
  exact ⟨a, s₂, hret'⟩

theorem calls_leave_versions_clean_sample : ∃ as s₁,
    (∀ retry, Returns (fun fuel => runAll ((sampleCalls.map Call.point).map fun c => c.prog fuel retry 0))
      State.init as s₁) ∧
      CleanVersions s₁ 0 := by
  obtain ⟨as, s₁, hret, hclean, -⟩ := calls_leave_versions_clean (.null rfl : Start 0 State.init ⟨false, ∅⟩)
    (sampleCalls.map .point) (by decide)
  exact ⟨as, s₁, hret, hclean⟩

/-- The slot that looks like a link to the emptied layer is removed in the place of the link: a deleted border stays in
    the tree. -/
theorem tagged_word_keeps_deleted : ¬ ∀ (s : State) (ti : TreeId) (m : MapState), Start ti s m → ∀ calls : List Call,
    ∃ as s₁, (∀ retry, Returns (fun fuel => runAll (calls.map fun c => c.prog fuel retry ti)) s as s₁) ∧
      CleanVersions s₁ ti := by
  intro hall
  obtain ⟨as, s₁, hret, hclean⟩ := hall State.init 0 ⟨false, ∅⟩ (.null rfl)
    ((linkedTwice ++ [PointCall.remove 0 [97, 97, 97, 97, 97, 97, 97, 97, 98]]).map .point)
  have hroot : s₁.root 0 = some 0 := (hret (pure ())).eval (fun r => r.2.root 0) (k := 64) fun n => by cbv
  have hborder : (s₁.node 0).map (fun nd => (nd.kind, slotsOf nd.permutation, nd.lv 0)) = some (.border, [0], .link 1) :=
    (hret (pure ())).eval (fun r => (r.2.node 0).map fun nd => (nd.kind, slotsOf nd.permutation, nd.lv 0)) (k := 64)
      fun n => by cbv
  have hlayer : (s₁.node 1).map (fun nd => nd.version.deleted) = some true :=
    (hret (pure ())).eval (fun r => (r.2.node 1).map fun nd => nd.version.deleted) (k := 64) fun n => by cbv
  obtain ⟨nd, hn, hnd⟩ := Option.map_eq_some_iff.mp hborder
  simp only [Prod.mk.injEq] at hnd
  obtain ⟨hk, hslots, hlink⟩ := hnd
  obtain ⟨ld, hl, hdel⟩ := Option.map_eq_some_iff.mp hlayer
  have hin : InTree s₁ 0 1 :=
    ⟨false, 1, .next (.first hroot) .root hn hk (by rw [hslots]; exact List.mem_singleton_self 0) hlink, .root⟩
  obtain ⟨hone, -⟩ := hclean.deleted 1 ld hin hl hdel
  exact absurd (hroot.symm.trans hone) (by simp)

/-- Every sequence of calls whose inline words have clear tag bits returns, and so no access faults on its way, and no
    error is reported. -/
theorem calls_report_no_error {s : State} {ti : TreeId} {m : MapState} (h : Start ti s m) (calls : List Call)
    (hc : ∀ c ∈ calls, c.Clear) :
    ∃ as s₁, Returns (fun fuel => runAll (calls.map fun c => c.prog fuel (pure ()) ti)) s as s₁ ∧ s₁.log = s.log := by
  obtain ⟨A, hA⟩ := h.refinesIn
  obtain ⟨as, s₁, m₁, B, dead, hret, -, hlog⟩ := hA.callRun calls hc
  exact ⟨as, s₁, hret (pure ()), hlog⟩

theorem calls_report_no_error_sample : ∃ as s₁, Returns (fun fuel => runAll ((sampleCalls.map Call.point ++
    [Call.scan ⟨[], .inf, [], .inf, 0, true⟩]).map fun c => c.prog fuel (pure ()) 0)) State.init as s₁ ∧ s₁.log = [] :=
  calls_report_no_error (.null rfl) _ (by decide)

/-- The border splits and takes what looks like a link along, and with it the parent pointer of the layer that the real
    link leads to. When the layer is emptied, its parent does not list it. -/
def tangled : List PointCall :=
  [.put 0 ⟨[97, 97, 97, 97, 97, 97, 97, 97, 98], .word 5, false⟩, .put 0 ⟨[120], .word 0x8000000000000002, false⟩] ++
    ((List.range 14).map fun i => .put 0 ⟨[UInt8.ofNat (98 + i)], .word 0, false⟩) ++
    [.remove 0 [120], .remove 0 [97, 97, 97, 97, 97, 97, 97, 97, 98]]

theorem tagged_word_reports_error : ¬ ∀ (s : State) (ti : TreeId) (m : MapState), Start ti s m →
    ∀ (calls : List Call) (fuel : Nat) as s₁,
    run (runAll (calls.map fun c => c.prog fuel (pure ()) ti)) s = some (as, s₁) → s₁.log = s.log := by
  intro hall
  have hlog : (run (runAll ((tangled.map Call.point).map fun c => c.prog 40 (pure ()) 0)) State.init).map
    (fun r => r.2.log) =
      some [.deleteOfChildNotFound] := by decide +kernel
  obtain ⟨⟨as, s₁⟩, hrun, hs⟩ := Option.map_eq_some_iff.mp hlog
  have hnone := hall State.init 0 ⟨false, ∅⟩ (.null rfl) (tangled.map .point) 40 as s₁ hrun
  exact absurd (hs.symm.trans hnone) (by simp [State.init])

end Yakushima
