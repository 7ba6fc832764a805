import Yakushima.Theorems.Forest

/-! # The cascade of a deletion

A deletion that empties a layer deletes the entry of the layer from the border above, and so on up to a
layer that keeps an entry or to the first layer. -/

namespace Yakushima
open M Permutation

/-- The memory after the deletion of the entry `e` from the layer at `π`. The layers from `π` up to below
    `σ` vanished; the layer `t` at `σ` lost the entry `x` and became `t'`. All in all the nodes `lost` left
    the tree. -/
structure Cascade (s s' : State) (token : Token) (ti : TreeId) (A : Forest) (dead : NodeId → Prop) (π σ : Path)
    (e x : Entry) (t t' : BTree) (lost : List NodeId) : Prop where
  suffix : σ <:+ π
  vanished : ∀ ρ, ρ <:+ π → σ.length < ρ.length → ∃ b y, A ρ = some (.border b [y]) ∧ (ρ = π → y = e)
  survivor : A σ = some t
  entry : (σ = π ∧ x = e) ∨ ∃ sl, (sl :: σ) <:+ π ∧ x.key = ⟨sl, 9⟩ ∧ x.content = .layer
  layer : LayerOk s' (A.parent σ) (A.link σ) (fun n => dead n ∨ n ∈ lost ∨ (e.slot (A.link π)).2 = .link n) t'
  entries : ∃ L R, t.entries = L ++ x :: R ∧ t'.entries = L ++ R
  filled : A.parent σ ≠ none → t'.entries ≠ []
  borders : ∀ b es, (b, es) ∈ t'.borders → ∃ es', (b, es') ∈ t.borders ∧ ∀ z ∈ es, z ∈ es'
  kept : ∀ n ∈ t'.ids, n ∈ t.ids
  lost_iff : ∀ n, n ∈ lost ↔ (n ∈ t.ids ∧ n ∉ t'.ids) ∨ ∃ ρ u, ρ <:+ π ∧ σ.length < ρ.length ∧ A ρ = some u ∧ n ∈ u.ids
  once : lost.Nodup
  frame : ∀ n, (∀ ρ u, ρ <:+ π → σ.length ≤ ρ.length → A ρ = some u → n ∉ u.ids) → A.parent σ ≠ some n →
    s'.node n = s.node n
  above : Above id s s' ti (A.parent σ) t.id t'.id
  next : s'.nextNode = s.nextNode
  rest : s'.rest = ((s.releaseContent token e.content).pushAll token lost).rest
  loss : LayerLoss x t t'
  emptied : ∀ n ∈ lost, ∀ nd, s.node n = some nd → nd.kind = .border → Emptied s' n
  stays : ∀ n nd, s.node n = some nd → ∃ nd', s'.node n = some nd'

section
variable {s s₀ : State} {ti : TreeId} {A : Forest} {dead : NodeId → Prop} {token : Token} {π : Path} {t t' : BTree}
  {e : Entry}

theorem suffix_length_le {σ ρ : Path} (h : ρ <:+ σ) (hl : σ.length ≤ ρ.length) : ρ = σ :=
  h.eq_of_length (Nat.le_antisymm h.length_le hl)

/-- A deletion that stays in its layer. -/
theorem Removed.cascade {s' : State} {gone : List NodeId} (ht : A π = some t) (hnd : t.ids.Nodup)
    (h : Removed (A.link π) (fun n => dead n ∨ (e.slot (A.link π)).2 = .link n) s s' token ti (A.parent π) t t' e gone) :
    Cascade s s' token ti A dead π π e e t t' gone := by
  have hperm := h.ids.nodup_iff.mp hnd
  obtain ⟨hgnd, -, hdis⟩ := List.nodup_append.mp hperm
  have hmem : ∀ n, n ∈ t.ids ↔ n ∈ gone ∨ n ∈ t'.ids := fun n => by rw [h.ids.mem_iff, List.mem_append]
  refine ⟨List.suffix_refl π, fun ρ hρ hl => absurd hρ.length_le (by omega), ht, Or.inl ⟨rfl, rfl⟩, ?_, h.entries,
    h.filled, h.borders,
    fun n hn => (hmem n).mpr (Or.inr hn), fun n => ?_, hgnd, fun n hn hp => ?_, h.above, h.next, h.rest, h.loss, h.emptied,
    h.stays⟩
  · refine h.layer.frame (fun _ _ => rfl) (fun m hm => ?_) fun _ _ => rfl
    rcases hm with hm | hm
    · exact Or.inl hm
    · exact Or.inr (Or.inr hm)
  · constructor
    · exact fun hn => Or.inl ⟨(hmem n).mpr (Or.inl hn), fun hn' => hdis n hn n hn' rfl⟩
    · rintro (⟨hn, hn'⟩ | ⟨ρ, u, hρ, hl, -⟩)
      · exact ((hmem n).mp hn).resolve_right hn'
      · exact absurd hρ.length_le (by omega)
  · exact h.frame n (hn π t (List.suffix_refl π) (Nat.le_refl _) ht) hp

theorem suffix_cons {ρ π : Path} {sl : KeySlice} (h : ρ <:+ sl :: π) : ρ = sl :: π ∨ ρ <:+ π := List.suffix_cons_iff.mp h

theorem State.pushAll_push {s₁ s₂ : State} {l : List NodeId} {n : NodeId} (h : s₂.rest = (s₁.pushAll token l).rest) :
    (s₂.push token n).rest = (s₁.pushAll token (l ++ [n])).rest := by
  simp only [State.rest, State.pushAll, State.push, Prod.mk.injEq] at h ⊢
  obtain ⟨h1, h2, h3, h4, h5, h6⟩ := h
  refine ⟨h1, h2, h3, ?_, h5, h6⟩
  rw [h4, h3]
  simp

/-- A layer vanishes, and the deletion goes on in the layer above. -/
theorem Cascade.vanish (H : Holds s₀ ti A dead) {s' : State} {σ : Path} {sl : KeySlice} {b : NodeId} {bd' : Node}
    {ue x : Entry} {lost : List NodeId} (ht : A (sl :: π) = some (.border b [e])) (hkey : ue.key = ⟨sl, 9⟩)
    (hc : ue.content = .layer) (hlink : A.link π sl = some b) (hk : bd'.kind = .border) (hcnk : getCnk bd'.permutation = 0)
    (h : Cascade ((s.releaseContent token e.content).setNode b bd') s' token ti A dead π σ ue x t t' lost) :
    Cascade s (s'.push token b) token ti A dead (sl :: π) σ e x t t' (lost ++ [b]) := by
  have hbids : b ∈ (BTree.border b [e]).ids := BTree.id_mem_ids (.border b [e])
  -- The border is in none of the layers above.
  have hout : ∀ {ρ : Path} {u : BTree}, ρ <:+ π → A ρ = some u → b ∉ u.ids := by
    intro ρ u hρ hu hb
    have hl := hρ.length_le
    have := congrArg List.length (H.ok.disjoint hu ht hb hbids)
    simp only [List.length_cons] at this
    omega
  have hpout : A.parent σ ≠ some b := by
    intro hp
    obtain ⟨sl', ρ, u, es, rfl, hu, hb⟩ := H.parent_mem h.survivor hp
    exact hout ((List.suffix_cons sl' ρ).trans h.suffix) hu (BTree.border_mem_ids hb)
  have hnode : ∀ n, n ≠ b → ((s.releaseContent token e.content).setNode b bd').node n = s.node n := fun n hn =>
    (State.setNode_node_ne hn).trans (congrFun (State.releaseContent_node s token e.content) n)
  have hue : ∀ n, (ue.slot (A.link π)).2 = .link n → n = b := by
    intro n hn
    have := (slot_link.mp hn).2
    rw [hkey, hlink] at this
    exact (Option.some.inj this).symm
  refine ⟨h.suffix.trans (List.suffix_cons sl π), ?_, h.survivor, ?_, ?_, h.entries, h.filled, h.borders, h.kept, ?_,
    ?_, ?_, ?_, ?_, ?_,
    h.loss, ?_, ?_⟩
  · intro ρ hρ hl
    rcases suffix_cons hρ with rfl | hρ
    · exact ⟨b, e, ht, fun _ => rfl⟩
    · obtain ⟨b', y, hy, -⟩ := h.vanished ρ hρ hl
      refine ⟨b', y, hy, ?_⟩
      rintro rfl
      have := hρ.length_le
      simp only [List.length_cons] at this
      omega
  · rcases h.entry with ⟨rfl, rfl⟩ | ⟨sl', hsl, hk, hx⟩
    · exact Or.inr ⟨sl, List.suffix_refl _, hkey, hc⟩
    · exact Or.inr ⟨sl', hsl.trans (List.suffix_cons sl π), hk, hx⟩
  · refine h.layer.frame (fun _ _ => rfl) (fun m hm => ?_) fun _ _ => rfl
    rcases hm with hm | hm | hm
    · exact Or.inl hm
    · exact Or.inr (Or.inl (List.mem_append_left _ hm))
    · exact Or.inr (Or.inl (List.mem_append_right _ (by rw [hue m hm]; exact List.mem_singleton_self b)))
  · intro n
    rw [List.mem_append, List.mem_singleton, h.lost_iff]
    constructor
    · rintro ((hn | ⟨ρ, u, hρ, hl, hu, hn⟩) | rfl)
      · exact Or.inl hn
      · exact Or.inr ⟨ρ, u, hρ.trans (List.suffix_cons sl π), hl, hu, hn⟩
      · refine Or.inr ⟨sl :: π, _, List.suffix_refl _, ?_, ht, hbids⟩
        exact Nat.lt_succ_of_le h.suffix.length_le
    · rintro (hn | ⟨ρ, u, hρ, hl, hu, hn⟩)
      · exact Or.inl (Or.inl hn)
      · rcases suffix_cons hρ with rfl | hρ
        · obtain rfl : BTree.border b [e] = u := Option.some.inj (ht.symm.trans hu)
          exact Or.inr (by simpa [BTree.ids, BTree.descs] using hn)
        · exact Or.inl (Or.inr ⟨ρ, u, hρ, hl, hu, hn⟩)
  · refine List.nodup_append.mpr ⟨h.once, List.nodup_singleton b, fun n hn m hm => ?_⟩
    rw [List.mem_singleton.mp hm]
    rintro rfl
    rcases (h.lost_iff n).mp hn with ⟨hn, -⟩ | ⟨ρ, u, hρ, -, hu, hn⟩
    · exact hout h.suffix h.survivor hn
    · exact hout hρ hu hn
  · intro n hn hp
    have hnb : n ≠ b := by
      rintro rfl
      exact hn (sl :: π) _ (List.suffix_refl _) (Nat.le_succ_of_le h.suffix.length_le) ht hbids
    exact (h.frame n (fun ρ u hρ hl hu => hn ρ u (hρ.trans (List.suffix_cons sl π)) hl hu) hp).trans (hnode n hnb)
  · refine h.above.congr (State.releaseContent_root s token e.content) rfl
      (fun p hp => hnode p fun he => hpout (he ▸ hp)) fun _ _ => rfl
  · exact h.next.trans (State.releaseContent_nextNode s token e.content)
  · have hr := h.rest
    rw [hc] at hr
    exact State.pushAll_push hr
  · intro n hn nd hnd hkn
    by_cases hnb : n = b
    · -- The border keeps the members it had when the deletion went on above.
      subst hnb
      refine ⟨bd', (h.frame n (fun ρ u hρ _ hu => hout hρ hu) hpout).trans (State.setNode_node_same _ _ _), hk, hcnk⟩
    · have hn' : n ∈ lost := (List.mem_append.mp hn).resolve_right fun hx => hnb (List.mem_singleton.mp hx)
      exact h.emptied n hn' nd ((hnode n hnb).trans hnd) hkn
  · intro n nd hnd
    by_cases hnb : n = b
    · subst hnb
      exact h.stays n bd' (State.setNode_node_same _ _ _)
    · exact h.stays n nd ((hnode n hnb).trans hnd)

theorem LayerOk.frame_pivots {par : Ptr} {link : KeySlice → Ptr} {f : Frame} {c : Ctx} {u : BTree}
    (h : LayerOk s par link dead (Ctx.plug (f :: c) u)) : f.pivots ≠ [] := by
  obtain ⟨pd, -, hok⟩ := h.frame_at
  intro hnil
  have := hok.body.1
  rw [hnil] at this
  simp at this

/-- The deletion of an entry that is not the last one of its layer. -/
theorem run_borderDeleteOf_stay (H : Holds s₀ ti A dead) {c : Ctx} {b : NodeId} {bd : Node} {lo hi : List Entry}
    (hl : ∀ ρ u, ρ <:+ π → A ρ = some u → LayerOk s (A.parent ρ) (A.link ρ) dead u) (hroot : s.root ti = s₀.root ti)
    (hnext : s.nextNode = s₀.nextNode) (ht : A π = some (Ctx.plug c (.border b (lo ++ e :: hi)))) (hb : s.node b = some bd)
    (hblock : ∀ v, e.content = .value (.heap v) → ∃ x, s.block v = some x) (hne : lo ++ hi ≠ [] ∨ c ≠ []) :
    ∃ s' t' lost, (∀ fuel > 0, ∀ k > 0, run (borderDeleteOf fuel token ti k b e.key.slice e.key.length e.content.isValue)
        (s.setNode b (bd.mapVersion (.setLocked true))) = some ((), s')) ∧
      Cascade s s' token ti A dead π π e e (Ctx.plug c (.border b (lo ++ e :: hi))) t' lost := by
  have hL := hl π _ (List.suffix_refl _) ht
  by_cases hkeep : lo ++ hi = []
  · obtain ⟨rfl, rfl⟩ := List.append_eq_nil_iff.mp hkeep
    cases c with
    | nil => exact absurd rfl (hne.resolve_left (by simp))
    | cons f c =>
      obtain ⟨f', y, hcl⟩ := f.exists_closes hL.frame_pivots
      obtain ⟨pd, hpd, -⟩ := hL.frame_at
      obtain ⟨s', hrun, hrem⟩ := run_borderDeleteOf_leave
        ⟨hL, hb, hpd, fun x hx => hnext ▸ H.fresh ht hx, fun p hp => (H.parent_out ht hp).1,
          H.upper_in hroot ht fun sl ρ u h hu => hl ρ u (h ▸ List.suffix_cons sl ρ) hu⟩ hblock (fun _ h => Or.inl h) hcl
      exact ⟨s', _, _, hrun, hrem.cascade ht hL.nodup⟩
  · obtain ⟨s', hrun, hrem⟩ := run_borderDeleteOf_keep
      hL hb hblock (fun _ h => Or.inl h) (fun _ h => Or.inr h)
      (fun p hp => (H.parent_out ht hp).1) hkeep
    exact ⟨s', _, [], hrun, hrem.cascade ht hL.nodup⟩

/-- `delete_of` on a border of a forest. -/
theorem run_borderDeleteOf (H : Holds s₀ ti A dead) :
    ∀ (π : Path) {s : State} {c : Ctx} {b : NodeId} {bd : Node} {lo hi : List Entry}
    {e : Entry}, (∀ ρ u, ρ <:+ π → A ρ = some u → LayerOk s (A.parent ρ) (A.link ρ) dead u) → s.root ti = s₀.root ti →
    s.nextNode = s₀.nextNode → A π = some (Ctx.plug c (.border b (lo ++ e :: hi))) → s.node b = some bd →
    (∀ v, e.content = .value (.heap v) → ∃ x, s.block v = some x) →
    ∃ s' σ x t t' lost,
      (∃ N, ∀ fuel ≥ N, ∀ k ≥ N, run (borderDeleteOf fuel token ti k b e.key.slice e.key.length e.content.isValue)
        (s.setNode b (bd.mapVersion (.setLocked true))) = some ((), s')) ∧
      Cascade s s' token ti A dead π σ e x t t' lost := by
  intro π
  induction π with
  | nil =>
    intro s c b bd lo hi e hl hroot hnext ht hb hblock
    by_cases hne : lo ++ hi ≠ [] ∨ c ≠ []
    · obtain ⟨s', t', lost, hrun, hcas⟩ := run_borderDeleteOf_stay H hl hroot hnext ht hb hblock hne
      exact ⟨s', [], e, _, t', lost, ⟨1, hrun⟩, hcas⟩
    · rw [not_or, not_not, not_not] at hne
      obtain ⟨hnil, rfl⟩ := hne
      obtain ⟨rfl, rfl⟩ := List.append_eq_nil_iff.mp hnil
      have hL := hl [] _ (List.suffix_refl _) ht
      obtain ⟨s', hrun, hrem⟩ := run_borderDeleteOf_root
        hL hb hblock (fun _ h => Or.inl h) (fun _ h => Or.inr h)
        (by rw [hroot, H.root, ht]; rfl)
      exact ⟨s', [], e, _, _, [], ⟨1, hrun⟩, hrem.cascade ht hL.nodup⟩
  | cons sl π ih =>
    intro s c b bd lo hi e hl hroot hnext ht hb hblock
    by_cases hne : lo ++ hi ≠ [] ∨ c ≠ []
    · obtain ⟨s', t', lost, hrun, hcas⟩ := run_borderDeleteOf_stay H hl hroot hnext ht hb hblock hne
      exact ⟨s', _, e, _, t', lost, ⟨1, hrun⟩, hcas⟩
    · rw [not_or, not_not, not_not] at hne
      obtain ⟨hnil, rfl⟩ := hne
      obtain ⟨rfl, rfl⟩ := List.append_eq_nil_iff.mp hnil
      have ht' : A (sl :: π) = some (.border b [e]) := ht
      have hL : LayerOk s (A.parent (sl :: π)) (A.link (sl :: π)) dead (.border b [e]) := hl _ _ (List.suffix_refl _) ht'
      -- The border above and the entry of the layer in it.
      obtain ⟨u, p, es, ue, hu, hp, hue, hkey, hc, hpar, hlink⟩ := H.above ht'
      obtain ⟨c', rfl⟩ := Ctx.exists_of_border hp
      obtain ⟨lo', hi', rfl⟩ := List.append_of_mem hue
      obtain ⟨pd, hpd, hpok⟩ := (hl π _ (List.suffix_cons sl π) hu).node_at
      have hpb : p ≠ b := fun h => (H.parent_out ht' hpar).1 (h ▸ BTree.id_mem_ids (.border b [e]))
      have hbid : A.link π sl = some b := hlink
      have huniq : ∀ x ∈ lo' ++ ue :: hi', (x.slot (A.link π)).2 = .link b → x = ue := by
        intro x hx hxl
        have hmem : ∀ z ∈ lo' ++ ue :: hi', z ∈ (Ctx.plug c' (.border p (lo' ++ ue :: hi'))).entries := fun z hz =>
          BTree.mem_entries.mpr ⟨p, _, hp, hz⟩
        refine (H.below hu).inj x (hmem x hx) ue (hmem ue hue) b hxl (slot_link.mpr ⟨hc, ?_⟩)
        rw [hkey]
        exact hbid
      rw [hpar] at hL
      obtain ⟨bd', hbk, hbc, hvan⟩ := run_borderDeleteOf_vanish hL hb hblock hpb hpd hpok hue
        (slot_link.mpr ⟨hc, by rw [hkey]; exact hbid⟩) huniq
      -- The memory in which the deletion goes on.
      let s1 := (s.releaseContent token e.content).setNode b bd'
      have hs1 : ∀ n, n ≠ b → s1.node n = s.node n := fun n hn =>
        (State.setNode_node_ne hn).trans (congrFun (State.releaseContent_node s token e.content) n)
      have hout : ∀ {ρ : Path} {u : BTree} {n : NodeId}, ρ <:+ π → A ρ = some u → n ∈ u.ids → n ≠ b := by
        rintro ρ w n hρ hw hn rfl
        have hlen := hρ.length_le
        have := congrArg List.length (H.ok.disjoint hw ht' hn (BTree.id_mem_ids (.border n [e])))
        simp only [List.length_cons] at this
        omega
      obtain ⟨s', σ, x, t, t', lost, ⟨N, hN⟩, hcas⟩ := ih (s := s1) (e := ue)
        (fun ρ w hρ hw => (hl ρ w (hρ.trans (List.suffix_cons sl π)) hw).frame (fun n hn => hs1 n (hout hρ hw hn))
          (fun _ h => h)
          fun _ _ => rfl)
        ((congrFun (State.releaseContent_root s token e.content) ti).trans hroot)
        ((State.releaseContent_nextNode s token e.content).trans hnext) hu ((hs1 p hpb).trans hpd)
        (fun v hv => absurd (hc.symm.trans hv) (by simp))
      refine ⟨s'.push token b, σ, x, t, t', lost ++ [b], ⟨N + 1, fun fuel hf k hk => ?_⟩,
        hcas.vanish H ht' hkey hc hbid hbk hbc⟩
      obtain ⟨k, rfl⟩ : ∃ j, k = j + 1 := ⟨k - 1, by omega⟩
      have hval : ue.content.isValue = false := by rw [hc]; rfl
      have hstep := hN fuel (by omega) k (by omega)
      rw [hval] at hstep
      exact (hvan fuel (by omega) k).trans ((run_bind_of hstep _).trans rfl)

end

/-! ### The forest after a deletion -/

theorem State.releaseContent_nextBlock (s : State) (token : Token) (c : Content) :
    (s.releaseContent token c).nextBlock = s.nextBlock := by
  cases c with
  | layer => rfl
  | value v =>
    cases v with
    | word w => rfl
    | heap v =>
      simp only [releaseContent, release]
      cases s.block v <;> rfl

/-- The forest in which the layer at `σ` is `t'`, and those below it on the way to `π` are gone. -/
def Forest.without (A : Forest) (π σ : Path) (t' : BTree) : Forest :=
  fun ρ => if ρ = σ then some t' else if σ.length < ρ.length ∧ ρ <:+ π then none else A ρ

section
variable {s s' : State} {ti : TreeId} {A : Forest} {dead : NodeId → Prop} {token : Token} {π σ : Path} {t t' : BTree}
  {e x : Entry} {lost : List NodeId}

theorem Forest.without_self : A.without π σ t' σ = some t' := if_pos rfl

theorem Forest.without_eq {ρ : Path} (h1 : ρ ≠ σ) (h2 : ¬ (σ.length < ρ.length ∧ ρ <:+ π)) : A.without π σ t' ρ = A ρ := by
  rw [without, if_neg h1, if_neg h2]

theorem Forest.without_cases {ρ : Path} {u : BTree} (h : A.without π σ t' ρ = some u) :
    (ρ = σ ∧ u = t') ∨ (ρ ≠ σ ∧ ¬ (σ.length < ρ.length ∧ ρ <:+ π) ∧ A ρ = some u) := by
  rw [without] at h
  split at h
  · next h1 => exact Or.inl ⟨h1, (Option.some.inj h).symm⟩
  · next h1 =>
    split at h
    · exact absurd h (by simp)
    · next h2 => exact Or.inr ⟨h1, h2, h⟩

theorem suffix_eq_of_cons {sl sl' : KeySlice} {ρ : Path} (h : (sl :: ρ) <:+ π) (h' : (sl' :: ρ) <:+ π) : sl = sl' := by
  have hle : (sl :: ρ).length ≤ (sl' :: ρ).length := Nat.le_refl _
  have := (List.suffix_of_suffix_length_le h h' hle).eq_of_length rfl
  exact (List.cons.inj this).1

/-- A proper suffix has a next slice. -/
theorem exists_cons_suffix {ρ : Path} (h : ρ <:+ π) (hne : ρ ≠ π) : ∃ sl, (sl :: ρ) <:+ π := by
  obtain ⟨l, rfl⟩ := h
  rcases List.eq_nil_or_concat l with rfl | ⟨l, sl, rfl⟩
  · exact absurd rfl hne
  · exact ⟨sl, l, by simp⟩

namespace Cascade
variable (h : Cascade s s' token ti A dead π σ e x t t' lost) (H : Holds s ti A dead)
include h H

theorem not_mem : x ∉ t'.entries := by
  obtain ⟨L, R, hL, hR⟩ := h.entries
  have hnd := (H.layers h.survivor).marks_nodup.of_map
  rw [hL] at hnd
  rw [hR]
  have := (List.perm_middle.nodup_iff.mp hnd)
  exact (List.nodup_cons.mp this).1

theorem mem_entries {y : Entry} : y ∈ t'.entries ↔ y ∈ t.entries ∧ y ≠ x := by
  have hx := h.not_mem H
  obtain ⟨L, R, hL, hR⟩ := h.entries
  rw [hL]
  rw [hR] at hx ⊢
  simp only [List.mem_append, List.mem_cons]
  constructor
  · intro hy
    refine ⟨?_, ?_⟩
    · rcases hy with hy | hy
      · exact Or.inl hy
      · exact Or.inr (Or.inr hy)
    · rintro rfl
      exact hx (List.mem_append.mpr hy)
  · rintro ⟨hy | hy | hy, hne⟩
    · exact Or.inl hy
    · exact absurd hy hne
    · exact Or.inr hy

/-- The layer below an entry that is left has not vanished. -/
theorem not_vanished {ρ : Path} {u : BTree} {sl : KeySlice} (hu : A.without π σ t' ρ = some u) (hsl : u.HasLayer sl) :
    ¬ (σ.length < (sl :: ρ).length ∧ (sl :: ρ) <:+ π) := by
  rintro ⟨hlen, hsuf⟩
  rcases Forest.without_cases hu with ⟨rfl, rfl⟩ | ⟨hne, hnv, -⟩
  · obtain ⟨y, hy, hys, hyc⟩ := hsl
    obtain ⟨hyt, hyx⟩ := (h.mem_entries H).mp hy
    rcases h.entry with ⟨rfl, -⟩ | ⟨sl', hsl', hkey, hxc⟩
    · have := hsuf.length_le
      simp only [List.length_cons] at this
      omega
    · obtain ⟨L, R, hL, -⟩ := h.entries
      refine hyx ((H.layers h.survivor).layer_inj hyt (hL ▸ by simp) hyc hxc ?_)
      rw [hys, hkey, suffix_eq_of_cons hsuf hsl']
  · have hρ : ρ <:+ π := (List.suffix_cons sl ρ).trans hsuf
    rcases Nat.lt_or_ge σ.length ρ.length with hlt | hge
    · exact hnv ⟨hlt, hρ⟩
    · simp only [List.length_cons] at hlen
      have hσρ := List.suffix_of_suffix_length_le h.suffix hρ (by omega)
      exact hne (hσρ.eq_of_length (by omega)).symm

/-- A layer that is left hangs below a layer that is left. -/
theorem linked {sl : KeySlice} {ρ : Path} (hv : e.content ≠ .layer) :
    (∃ u, A.without π σ t' (sl :: ρ) = some u) ↔ ∃ w, A.without π σ t' ρ = some w ∧ w.HasLayer sl := by
  constructor
  · rintro ⟨u, hu⟩
    rcases Forest.without_cases hu with ⟨hσ, rfl⟩ | ⟨hne, hnv, hA⟩
    · obtain ⟨w, hw, hsl⟩ := (H.ok.linked sl ρ).mp ⟨t, hσ ▸ h.survivor⟩
      refine ⟨w, ?_, hsl⟩
      rw [Forest.without_eq, hw]
      · rw [← hσ]
        exact path_ne_cons sl ρ
      · rintro ⟨hl, -⟩
        rw [← hσ, List.length_cons] at hl
        omega
    · obtain ⟨w, hw, hsl⟩ := (H.ok.linked sl ρ).mp ⟨u, hA⟩
      by_cases hρ : ρ = σ
      · subst hρ
        obtain rfl : t = w := Option.some.inj (h.survivor.symm.trans hw)
        refine ⟨t', Forest.without_self, ?_⟩
        obtain ⟨y, hy, hys, hyc⟩ := hsl
        refine ⟨y, (h.mem_entries H).mpr ⟨hy, ?_⟩, hys, hyc⟩
        rintro rfl
        rcases h.entry with ⟨-, rfl⟩ | ⟨sl', hsl', hkey, -⟩
        · exact hv hyc
        · rw [hkey] at hys
          refine hnv ⟨Nat.lt_succ_self _, ?_⟩
          rw [← hys]
          exact hsl'
      · refine ⟨w, ?_, hsl⟩
        rw [Forest.without_eq hρ, hw]
        rintro ⟨hl, hsuf⟩
        obtain ⟨b, y, hy, hye⟩ := h.vanished ρ hsuf hl
        obtain rfl : .border b [y] = w := Option.some.inj (hy.symm.trans hw)
        have honly : ∀ z, (BTree.border b [y]).HasLayer z → y.key.slice = z ∧ y.content = .layer := by
          rintro z ⟨y', hy', hs, hc⟩
          obtain rfl : y' = y := by simpa [BTree.entries, BTree.borders] using hy'
          exact ⟨hs, hc⟩
        by_cases hρπ : ρ = π
        · exact hv ((hye hρπ) ▸ (honly sl hsl).2)
        · obtain ⟨z, hz⟩ := exists_cons_suffix hsuf hρπ
          have hzl : σ.length < (z :: ρ).length := Nat.lt_succ_of_lt hl
          obtain ⟨b', y', hy', -⟩ := h.vanished (z :: ρ) hz hzl
          obtain ⟨w', hw', hzw⟩ := (H.ok.linked z ρ).mp ⟨_, hy'⟩
          obtain rfl : .border b [y] = w' := Option.some.inj (hy.symm.trans hw')
          have heq : z = sl := (honly z hzw).1.symm.trans (honly sl hsl).1
          exact hnv ⟨heq ▸ hzl, heq ▸ hz⟩
  · rintro ⟨w, hw, hsl⟩
    have hnv := h.not_vanished H hw hsl
    by_cases hσ : sl :: ρ = σ
    · exact ⟨t', hσ ▸ Forest.without_self⟩
    · rw [Forest.without_eq hσ hnv]
      rcases Forest.without_cases hw with ⟨rfl, rfl⟩ | ⟨-, -, hA⟩
      · obtain ⟨y, hy, hys, hyc⟩ := hsl
        exact (H.ok.linked sl ρ).mpr ⟨t, h.survivor, y, ((h.mem_entries H).mp hy).1, hys, hyc⟩
      · exact (H.ok.linked sl ρ).mpr ⟨w, hA, hsl⟩

/-- Every layer that is left was there, with at least its nodes and entries. -/
theorem before {ρ : Path} {u : BTree} (hu : A.without π σ t' ρ = some u) :
    ∃ w, A ρ = some w ∧ (∀ n ∈ u.ids, n ∈ w.ids) ∧ (∀ y ∈ u.entries, y ∈ w.entries) := by
  rcases Forest.without_cases hu with ⟨rfl, rfl⟩ | ⟨-, -, hA⟩
  · exact ⟨t, h.survivor, h.kept, fun y hy => ((h.mem_entries H).mp hy).1⟩
  · exact ⟨u, hA, fun _ hn => hn, fun _ hy => hy⟩

theorem has_before {ρ : Path} {y : Entry} (hy : (A.without π σ t').Has ρ y) : A.Has ρ y := by
  obtain ⟨u, hu, hy⟩ := hy
  obtain ⟨w, hw, -, he⟩ := h.before H hu
  exact ⟨w, hw, he y hy⟩

/-- The deleted entry is not there any more. -/
theorem has_ne {ρ : Path} {y : Entry} (hy : (A.without π σ t').Has ρ y) : ¬ (ρ = π ∧ y = e) := by
  rintro ⟨rfl, rfl⟩
  obtain ⟨u, hu, hy⟩ := hy
  rcases Forest.without_cases hu with ⟨rfl, rfl⟩ | ⟨hne, hnv, -⟩
  · rcases h.entry with ⟨-, rfl⟩ | ⟨sl, hsl, -⟩
    · exact h.not_mem H hy
    · have := hsl.length_le
      simp only [List.length_cons] at this
      omega
  · refine hnv ⟨?_, List.suffix_refl _⟩
    rcases Nat.lt_or_ge σ.length ρ.length with hlt | hge
    · exact hlt
    · exact absurd (suffix_length_le h.suffix hge).symm hne

theorem forest_ok (hv : e.content ≠ .layer) : (A.without π σ t').Ok where
  linked := fun sl ρ => h.linked H hv
  disjoint := fun hu hw hn hn' => by
    obtain ⟨u', hu', hsub, -⟩ := h.before H hu
    obtain ⟨w', hw', hsub', -⟩ := h.before H hw
    exact H.ok.disjoint hu' hw' (hsub _ hn) (hsub' _ hn')
  nonempty := fun {sl ρ u} hu => by
    rcases Forest.without_cases hu with ⟨rfl, rfl⟩ | ⟨-, -, hA⟩
    · refine h.filled ?_
      obtain ⟨-, b, -, -, -, -, -, -, -, hpar, -⟩ := H.above h.survivor
      rw [hpar]
      simp
    · exact H.ok.nonempty hA
  positive := fun hu y hy => by
    obtain ⟨w, hw, -, he⟩ := h.before H hu
    exact H.ok.positive hw y (he y hy)
  bounded := by
    obtain ⟨D, hD⟩ := H.ok.bounded
    refine ⟨D, fun ρ u hu => ?_⟩
    obtain ⟨w, hw, -⟩ := h.before H hu
    exact hD ρ w hw

/-- The layers that are left hang under the same borders. -/
theorem parent_eq {ρ : Path} {u : BTree} (hv : e.content ≠ .layer) (hu : A.without π σ t' ρ = some u) :
    (A.without π σ t').parent ρ = A.parent ρ := by
  cases ρ with
  | nil => rfl
  | cons sl ρ =>
    obtain ⟨w, hw, hsl⟩ := (h.linked H hv).mp ⟨u, hu⟩
    rw [Forest.parent, Forest.parent, hw]
    rcases Forest.without_cases hw with ⟨rfl, rfl⟩ | ⟨-, -, hA⟩
    · obtain ⟨b, es, y, hb, hy, rfl, hyc⟩ := hsl.border
      obtain ⟨es', hb', hsub⟩ := h.borders b es hb
      rw [h.survivor]
      simp only [Option.bind_some]
      rw [h.layer.linkBorder_eq hb hy hyc, (H.layers h.survivor).linkBorder_eq hb' (hsub y hy) hyc]
    · rw [hA]

/-- The roots of the layers below, except of the one that lost the entry. -/
theorem link_eq {ρ : Path} {u : BTree} {sl : KeySlice} (hu : A.without π σ t' ρ = some u) (hsl : u.HasLayer sl)
    (hσ : sl :: ρ ≠ σ) :
    (A.without π σ t').link ρ sl = A.link ρ sl := by
  rw [Forest.link, Forest.link, Forest.without_eq hσ (h.not_vanished H hu hsl)]

/-- The nodes of the layers that are left, except for the one that lost the entry and the one above it. -/
theorem frame_layer {ρ : Path} {u : BTree} (hu : A ρ = some u) (hne : ρ ≠ σ) (hnv : ¬ (σ.length < ρ.length ∧ ρ <:+ π))
    {n : NodeId} (hn : n ∈ u.ids) (hp : A.parent σ ≠ some n) : s'.node n = s.node n := by
  refine h.frame n (fun ρ' w hρ' hl hw hnw => ?_) hp
  obtain rfl := H.ok.disjoint hw hu hnw hn
  rcases Nat.lt_or_ge σ.length ρ'.length with hlt | hge
  · exact hnv ⟨hlt, hρ'⟩
  · exact hne ((List.suffix_of_suffix_length_le hρ' h.suffix (by omega)).eq_of_length (by omega))

theorem layers (hv : e.content ≠ .layer) {ρ : Path} {u : BTree} (hu : A.without π σ t' ρ = some u) :
    LayerOk s' ((A.without π σ t').parent ρ) ((A.without π σ t').link ρ) (fun n => dead n ∨ n ∈ lost) u := by
  rw [h.parent_eq H hv hu]
  rcases Forest.without_cases hu with ⟨rfl, rfl⟩ | ⟨hne, hnv, hA⟩
  · refine h.layer.frame (fun _ _ => rfl) (fun n hn => ?_) fun sl hsl => h.link_eq H hu hsl (path_ne_cons sl _).symm
    rcases hn with hn | hn | hn
    · exact Or.inl hn
    · exact Or.inr hn
    · exact absurd (slot_link.mp hn).1 hv
  · by_cases hσ : ∃ sl, σ = sl :: ρ
    · -- The layer above the one that lost the entry.
      obtain ⟨sl, rfl⟩ := hσ
      obtain ⟨w, p, es, y, hw, hp, hy, hkey, hyc, hpar, hlink⟩ := H.above h.survivor
      obtain rfl : u = w := Option.some.inj (hA.symm.trans hw)
      have habove := h.above
      rw [hpar] at habove
      have hsl : y.key.slice = sl := by rw [hkey]
      have hrel := (H.layers hA).relink hp hy (fun z hz => ?_) (H.alive h.survivor t.id_mem_ids) bumps_id habove
        fun n hn hnp => h.frame_layer H hA hne hnv hn (by rw [hpar]; exact fun he => hnp (Option.some.inj he).symm)
      · refine hrel.frame (fun _ _ => rfl) (fun n hn => Or.inl hn) fun z hz => ?_
        by_cases hz' : z = sl
        · rw [hz', Forest.link, Forest.without_self, relink, if_pos hsl.symm]
          rfl
        · rw [h.link_eq H hu hz fun he => hz' (List.cons.inj he).1, relink, if_neg (hsl ▸ hz')]
      · constructor
        · intro hzl
          obtain ⟨hzc, hzs⟩ := slot_link.mp hzl
          obtain ⟨w', hw', hid⟩ := Option.map_eq_some_iff.mp hzs
          have := H.ok.disjoint hw' h.survivor w'.id_mem_ids (hid ▸ t.id_mem_ids)
          refine (H.layers hA).layer_inj hz (BTree.mem_entries.mpr ⟨p, es, hp, hy⟩) hzc hyc ?_
          rw [hsl]
          exact (List.cons.inj this).1
        · rintro rfl
          exact slot_link.mpr ⟨hyc, by rw [hsl]; exact hlink⟩
    · refine (H.layers hA).frame (fun n hn => h.frame_layer H hA hne hnv hn fun hp => ?_) (fun n hn => Or.inl hn)
        fun sl hsl =>
        h.link_eq H hu hsl fun he => hσ ⟨sl, he.symm⟩
      obtain ⟨sl, τ, w, es, rfl, hw, hb⟩ := H.parent_mem h.survivor hp
      obtain rfl := H.ok.disjoint hw hA (BTree.border_mem_ids hb) hn
      exact hσ ⟨sl, rfl⟩

theorem root_eq : s'.root ti = ((A.without π σ t') []).map BTree.id := by
  have hroot := H.root
  by_cases hσ : σ = []
  · subst hσ
    rw [Forest.without_self]
    have hAs := h.survivor
    rw [hAs] at hroot
    rcases h.above with ⟨heq, hr, -⟩ | ⟨-, hr⟩ | ⟨p, -, -, hpar, -⟩
    · rw [hr, hroot, Option.map_some, Option.map_some, heq]
    · rw [hr]
      simp [State.setRoot]
    · exact absurd hpar (by simp [Forest.parent])
  · rw [Forest.without_eq (fun he => hσ he.symm) (by simp), ← hroot]
    rcases h.above with ⟨-, hr, -⟩ | ⟨hpar, -⟩ | ⟨-, -, -, -, hr, -⟩
    · rw [hr]
    · obtain ⟨sl, τ, rfl⟩ := List.exists_cons_of_ne_nil hσ
      obtain ⟨-, b, -, -, -, -, -, -, -, hpar', -⟩ := H.above h.survivor
      exact absurd (hpar'.symm.trans hpar) (by simp)
    · rw [hr]

/-- The blocks after the deletion. -/
theorem block_eq {ρ : Path} {y : Entry} {v : ValueId} (he : A.Has π e) (hy : (A.without π σ t').Has ρ y)
    (hv : y.content = .value (.heap v)) : s'.block v = s.block v := by
  have hr := h.rest
  simp only [State.rest, Prod.mk.injEq] at hr
  rw [hr.1]
  change (s.releaseContent token e.content).block v = s.block v
  cases hc : e.content with
  | layer => rfl
  | value w =>
    cases w with
    | word w => rfl
    | heap w =>
      have hne : v ≠ w := by
        rintro rfl
        exact h.has_ne H hy (H.owned (h.has_before H hy) he hv hc)
      simp only [State.releaseContent, State.release]
      cases s.block w with
      | none => rfl
      | some b => exact if_neg hne

/-- The memory holds what is left of the forest. -/
theorem holds (he : A.Has π e) (hv : e.content ≠ .layer) : Holds s' ti (A.without π σ t') (fun n => dead n ∨ n ∈ lost) where
  ok := h.forest_ok H hv
  root := h.root_eq H
  layers := fun hu => h.layers H hv hu
  fresh := fun hu hn => by
    obtain ⟨w, hw, hsub, -⟩ := h.before H hu
    rw [h.next]
    exact H.fresh hw (hsub _ hn)
  alive := fun {ρ u n} hu hn => by
    obtain ⟨w, hw, hsub, -⟩ := h.before H hu
    rintro (hd | hl)
    · exact H.alive hw (hsub _ hn) hd
    · rcases (h.lost_iff n).mp hl with ⟨hnt, hnt'⟩ | ⟨ρ', w', hρ', hlen, hw', hn'⟩
      · obtain rfl := H.ok.disjoint h.survivor hw hnt (hsub _ hn)
        rcases Forest.without_cases hu with ⟨-, rfl⟩ | ⟨hne, -⟩
        · exact hnt' hn
        · exact hne rfl
      · obtain rfl := H.ok.disjoint hw' hw hn' (hsub _ hn)
        rcases Forest.without_cases hu with ⟨rfl, -⟩ | ⟨-, hnv, -⟩
        · omega
        · exact hnv ⟨hlen, hρ'⟩
  gone := fun n hn => by
    rw [h.next]
    rcases hn with hd | hl
    · exact H.gone n hd
    · rcases (h.lost_iff n).mp hl with ⟨hnt, -⟩ | ⟨ρ', w', -, -, hw', hn'⟩
      · exact H.fresh h.survivor hnt
      · exact H.fresh hw' hn'
  blocks := fun hy hyv => by
    obtain ⟨hlt, b, hb⟩ := H.blocks (h.has_before H hy) hyv
    refine ⟨?_, b, (h.block_eq H he hy hyv).trans hb⟩
    have hr := h.rest
    simp only [State.rest, Prod.mk.injEq] at hr
    rw [hr.2.1]
    exact Nat.lt_of_lt_of_eq hlt (s.releaseContent_nextBlock token e.content).symm
  owned := fun hy hy' hyv hyv' => H.owned (h.has_before H hy) (h.has_before H hy') hyv hyv'

end Cascade
end
end Yakushima
