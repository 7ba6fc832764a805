import Yakushima.Theorems.Directory
import Yakushima.Theorems.GarbageCollection

/-! # From `init` to `fin`

Any sequence of calls on storages is the same sequence on a map of maps, and no node and no heap block is lost on the
way: `fin` releases what is left. -/

namespace Yakushima
open M Permutation

namespace Directory

section
variable {N : Nat} {s s' : State} {F : TreeId → Forest} {W : TreeId → MapState} {d : DirState} {α : Type}

/-! ### Garbage -/

theorem dropped_cons (g : Nat → Option α) (x : Nat) (l : List Nat) :
    (fun y => if y ∈ l then none else if y = x then none else g y) = fun y => if y ∈ x :: l then none else g y := by
  funext y
  by_cases h1 : y ∈ l
  · rw [if_pos h1, if_pos (List.mem_cons_of_mem _ h1)]
  · by_cases h2 : y = x
    · rw [if_neg h1, if_pos h2, if_pos (h2 ▸ List.mem_cons_self)]
    · rw [if_neg h1, if_neg h2, if_neg (List.not_mem_cons_of_ne_of_not_mem h2 h1)]

theorem run_forEach_deleteNode {l : List α} {f : α → NodeId} (hnd : (l.map f).Nodup) (hl : ∀ x ∈ l.map f, s.node x ≠ none) :
    run (forEach (fun e => op (.deleteNode (f e))) l) s =
      some ((), { s with node := fun x => if x ∈ l.map f then none else s.node x }) := by
  induction l generalizing s with
  | nil => rfl
  | cons a l ih =>
    obtain ⟨hni, hnd'⟩ := List.nodup_cons.mp hnd
    obtain ⟨nd, hn⟩ := Option.ne_none_iff_exists'.mp (hl (f a) List.mem_cons_self)
    have hstep : run (op (.deleteNode (f a))) s =
      some ((), { s with node := fun x => if x = f a then none else s.node x }) := by
      simp only [op, run, Lib.Prog.run, exec, hn]
    rw [forEach, run_bind_of hstep, ih hnd' fun x hx => ?_, List.map_cons, ← dropped_cons s.node]
    have hne : x ≠ f a := fun heq => hni (heq ▸ hx)
    exact fun hnone => hl x (List.mem_cons_of_mem _ hx) ((if_neg hne).symm.trans hnone)

theorem run_forEach_deleteBlock {l : List α} {f : α → ValueId} (hnd : (l.map f).Nodup)
    (hl : ∀ v ∈ l.map f, s.block v ≠ none) :
    run (forEach (fun e => op (.deleteBlock (f e))) l) s =
      some ((), { s with block := fun v => if v ∈ l.map f then none else s.block v }) := by
  induction l generalizing s with
  | nil => rfl
  | cons a l ih =>
    obtain ⟨hni, hnd'⟩ := List.nodup_cons.mp hnd
    obtain ⟨b, hb⟩ := Option.ne_none_iff_exists'.mp (hl (f a) List.mem_cons_self)
    have hstep : run (op (.deleteBlock (f a))) s =
      some ((), { s with block := fun v => if v = f a then none else s.block v }) := by
      simp only [op, run, Lib.Prog.run, exec, hb]
    rw [forEach, run_bind_of hstep, ih hnd' fun v hv => ?_, List.map_cons, ← dropped_cons s.block]
    have hne : v ≠ f a := fun heq => hni (heq ▸ hv)
    exact fun hnone => hl v (List.mem_cons_of_mem _ hv) ((if_neg hne).symm.trans hnone)

/-- What a session frees and leaves is what its container held. -/
def Splits (f : Container α → List (Epoch × α) × Container α) : Prop := ∀ c, (f c).1 ++ (f c).2.held = c.held

theorem splits_gc (gcEpoch : Epoch) : Splits (Container.gc (α := α) gcEpoch) := fun c => by
  rw [Container.gc_eq_gcLoop, Container.gcLoop_held]

theorem splits_fin : Splits (Container.fin (α := α)) := fun c => by
  rw [Container.fin_held]
  exact List.append_nil _

theorem sweep_perm {f : Container α → List (Epoch × α) × Container α} (hf : Splits f) (token : Token)
    (l : List (Garbage α)) (g : α → Nat) :
    (l.map fun x => g x.target).Perm
    ((sweep token f l).1.map (fun e => g e.2) ++ (sweep token f l).2.map fun x => g x.target) := by
  have hsplit := hf ⟨none, (l.filter (·.token = token)).map fun x => (x.epoch, x.target)⟩
  have hmap : ((l.filter (·.token = token)).map fun x => g x.target) = (sweep token f l).1.map (fun e => g e.2) ++
      (f ⟨none, (l.filter (·.token = token)).map fun x => (x.epoch, x.target)⟩).2.held.map fun e => g e.2 := by
    rw [sweep, ← List.map_append, hsplit, Container.held]
    simp
  have hperm := ((List.filter_append_perm (fun x : Garbage α => x.token = token) l).map fun x => g x.target).symm
  rw [List.map_append, hmap, List.append_assoc] at hperm
  refine hperm.trans (List.Perm.append_left _ ?_)
  simp only [sweep, List.map_append, List.map_map, Function.comp_def, ← decide_not]
  exact List.perm_append_comm

theorem sweep_tokens {f : Container α → List (Epoch × α) × Container α} {token : Token}
    (ht : token < N) {l : List (Garbage α)} (hl : ∀ g ∈ l, g.token < N) : ∀ g ∈ (sweep token f l).2, g.token < N := by
  intro g hg
  rcases List.mem_append.mp hg with hg | hg
  · exact hl g (List.mem_of_mem_filter hg)
  · obtain ⟨e, -, rfl⟩ := List.mem_map.mp hg
    exact ht

theorem returns_freeNodes (h : World N s F W) {token : Token}
    (ht : token < N) {f : Container NodeId → List (Epoch × NodeId) × Container NodeId} (hf : Splits f) :
    ∃ s', freeNodes token f s = some s' ∧ World N s' F W ∧ s'.nodeContainer = (sweep token f s.nodeContainer).2 ∧
      s'.valueContainer = s.valueContainer := by
  have hperm := sweep_perm hf token s.nodeContainer id
  have hnd := (hperm.nodup_iff.mp h.nodes.once)
  refine ⟨_, ?_, h.releaseNodes hperm (sweep_tokens ht h.nodeTokens), rfl, rfl⟩
  have hrun := run_forEach_deleteNode (s := s) (f := fun e : Epoch × NodeId => e.2) (List.nodup_append.mp hnd).1 fun x hx =>
    (h.nodes.accounted x).mpr (Or.inr (hperm.mem_iff.mpr (List.mem_append_left _ hx)))
  rw [freeNodes]
  exact congrArg (Option.map _) hrun

theorem returns_freeValues (h : World N s F W) {token : Token} (ht : token < N)
    {f : Container ValueTarget → List (Epoch × ValueTarget) × Container ValueTarget} (hf : Splits f) : ∃ s',
      freeValues token f s = some s' ∧ World N s' F W ∧ s'.nodeContainer = s.nodeContainer ∧
        s'.valueContainer = (sweep token f s.valueContainer).2 := by
  have hperm := sweep_perm hf token s.valueContainer Prod.fst
  have hnd := (hperm.nodup_iff.mp h.blocks.once)
  refine ⟨_, ?_, h.releaseValues hperm (sweep_tokens ht h.valueTokens), rfl, rfl⟩
  have hrun := run_forEach_deleteBlock (s := s) (f := fun e : Epoch × ValueTarget => e.2.1)
    (List.nodup_append.mp hnd).1 fun v hv =>
    (h.blocks.accounted v).mpr (Or.inr (hperm.mem_iff.mpr (List.mem_append_left _ hv)))
  rw [freeValues]
  exact congrArg (Option.map _) hrun

/-- Every call on a memory with storages returns, as one call on the directory. -/
theorem Represents.step (h : Represents N s d) {c : Call N} (hc : c.Representable) : Steps s d c := by
  obtain ⟨F, W, h, hd⟩ := h
  cases c with
  | create token name => exact steps_create h hd token name
  | delete token name => exact steps_delete h hd token name
  | find name => exact steps_find h hd name
  | list => exact steps_list h hd
  | point name c ht => exact steps_point h hd name c ht hc
  | scan name args out => exact steps_scan h hd name args out
  | beginEpoch token e => exact ⟨_, _, d, ⟨0, fun _ _ => rfl⟩, .beginEpoch token e, F, W, h.setBeginEpoch _, hd⟩
  | gcNode token gcEpoch =>
    obtain ⟨s', hs, h', -⟩ := returns_freeNodes h token.isLt (splits_gc gcEpoch)
    exact ⟨.done, s', d, ⟨0, fun _ _ => by rw [Call.exec, hs]; rfl⟩, .gcNode token gcEpoch, F, W, h', hd⟩
  | gcValue token gcEpoch =>
    obtain ⟨s', hs, h', -⟩ := returns_freeValues h token.isLt (splits_gc gcEpoch)
    exact ⟨.done, s', d, ⟨0, fun _ _ => by rw [Call.exec, hs]; rfl⟩, .gcValue token gcEpoch, F, W, h', hd⟩
  | destroy => exact steps_destroy h hd

theorem Represents.run (h : Represents N s d) (calls : List (Call N)) (hc : ∀ c ∈ calls, c.Representable) : ∃ as s' d',
    (∃ K, ∀ fuel ≥ K, runCalls fuel calls s = some (as, s')) ∧ DirRun d calls as d' ∧ Represents N s' d' := by
  induction calls generalizing s d with
  | nil => exact ⟨[], s, d, ⟨0, fun _ _ => rfl⟩, .nil d, h⟩
  | cons c calls ih =>
    obtain ⟨a, s₁, d₁, ⟨K₁, hK₁⟩, hstep, h₁⟩ := h.step (hc c List.mem_cons_self)
    obtain ⟨as, s₂, d₂, ⟨K₂, hK₂⟩, hrun, h₂⟩ := ih h₁ fun c hin => hc c (List.mem_cons_of_mem _ hin)
    refine ⟨a :: as, s₂, d₂, ⟨K₁ + K₂, fun fuel hf => ?_⟩, .cons hstep hrun, h₂⟩
    rw [runCalls, hK₁ fuel (by lia), Option.bind_some, hK₂ fuel (by lia)]
    rfl

theorem returns_finTable (table : List Token) (h : World N s F W) (ht : ∀ token ∈ table, token < N) :
    ∃ s', finTable table s = some s' ∧
    World N s' F W ∧ s'.nodeContainer = s.nodeContainer.filter (fun g => g.token ∉ table) ∧
      s'.valueContainer = s.valueContainer.filter (fun g => g.token ∉ table) := by
  have hfin : ∀ {β : Type} {token : Token} {l : List (Garbage β)},
    (sweep token Container.fin l).2 = l.filter (·.token ≠ token) :=
    List.append_nil _
  induction table generalizing s with
  | nil => exact ⟨s, rfl, h, by simp, by simp⟩
  | cons token table ih =>
    obtain ⟨s₁, hs₁, h₁, hn₁, hv₁⟩ := returns_freeNodes h (ht token List.mem_cons_self) splits_fin
    obtain ⟨s₂, hs₂, h₂, hn₂, hv₂⟩ := returns_freeValues h₁ (ht token List.mem_cons_self) splits_fin
    obtain ⟨s₃, hs₃, h₃, hn₃, hv₃⟩ := ih h₂ fun t htt => ht t (List.mem_cons_of_mem _ htt)
    refine ⟨s₃, ?_, h₃, ?_, ?_⟩
    · rw [finTable, hs₁, Option.bind_some, hs₂, Option.bind_some, hs₃]
    · rw [hn₃, hn₂, hn₁, hfin, List.filter_filter]
      refine List.filter_congr fun g _ => ?_
      simp [Bool.and_comm]
    · rw [hv₃, hv₂, hv₁, hfin, List.filter_filter]
      refine List.filter_congr fun g _ => ?_
      simp [Bool.and_comm]

/-- `fin` after a sequence of calls. -/
theorem Represents.fin (h : Represents N s d) : ∃ s', (∃ K, ∀ fuel ≥ K, Directory.fin fuel (pure ()) N s = some s') ∧
    (∀ x, s'.node x = none) ∧ (∀ v, s'.block v = none) ∧ s'.nodeContainer = [] ∧ s'.valueContainer = [] := by
  obtain ⟨F, W, h, hd⟩ := h
  obtain ⟨st, s₁, F₁, W₁, ⟨K, hK⟩, h₁, hW₁, -⟩ := returns_destroy h hd
  obtain ⟨s₂, hs₂, h₂, hn₂, hv₂⟩ := returns_finTable (List.range N) h₁ fun token => List.mem_range.mp
  have hn : s₂.nodeContainer = [] := by
    rw [hn₂, List.filter_eq_nil_iff]
    intro g hg
    simpa using h₁.nodeTokens g hg
  have hv : s₂.valueContainer = [] := by
    rw [hv₂, List.filter_eq_nil_iff]
    intro g hg
    simpa using h₁.valueTokens g hg
  have hnone : ∀ ti, (∀ x, x ∉ (F₁ ti).owned.nodes) ∧ ∀ v, v ∉ (F₁ ti).owned.blocks := fun ti => by
    obtain ⟨dead, hr⟩ := h₂.refines ti
    exact hr.holds.owned_empty (World.root_none h₂ (hW₁ ti))
  refine ⟨s₂, ⟨K, fun fuel hf => ?_⟩, fun x => ?_, fun v => ?_, hn, hv⟩
  · rw [Directory.fin, show Yakushima.run (Directory.destroy fuel (pure ())) s = some (st, s₁) from hK fuel hf]
    exact hs₂
  · have hL := h₂.nodes
    rw [hn] at hL
    exact not_not.mp (hL.none_left (fun ti y => (hnone ti).1 y) x)
  · have hL := h₂.blocks
    rw [hv] at hL
    exact not_not.mp (hL.none_left (fun ti y => (hnone ti).2 y) v)

/-- The directory and its storages. -/
def DirState.Live (d : DirState) (ti : TreeId) : Prop := ti = storages ∨
    ∃ name S, d.stores.lookup name = some S ∧ S.tree = ti

theorem Linked.live_of_root (hd : Linked W d) (h : World N s F W) {ti : TreeId} (hroot : s.root ti ≠ none) : d.Live ti := by
  refine forall_tree (P := fun ti => s.root ti ≠ none → d.Live ti) (fun _ => Or.inl rfl)
    (fun hne => absurd (World.root_none h hd.idle) hne)
    (fun v hne => ?_) ti hroot
  by_contra hno
  refine hne
    (World.root_none h (hd.unused v fun n b hb hp => hno (Or.inr ⟨n, _, hd.lookup_iff.mpr ⟨b, v, hb, hp, rfl⟩, rfl⟩)))

/-- The nodes and heap blocks of a memory belong to the live trees, each to one, or they wait in the containers. -/
structure Accounted (s : State) (live : TreeId → Prop) : Prop where
  nodes : Lib.Ledger (fun x => s.node x ≠ none) (fun ti x => live ti ∧ Reachable s ti x) (s.nodeContainer.map (·.target))
  blocks : Lib.Ledger (fun v => s.block v ≠ none) (fun ti v => live ti ∧ Owns s ti v) (s.valueContainer.map (·.target.1))

theorem accounted (h : World N s F W) (hd : Linked W d) : Accounted s d.Live := by
  have hroot : ∀ {ti}, ((∃ x, x ∈ (F ti).owned.nodes) ∨ ∃ v, v ∈ (F ti).owned.blocks) → d.Live ti := by
    intro ti hne
    obtain ⟨dead, hr⟩ := h.refines ti
    refine hd.live_of_root h fun hnone => ?_
    obtain ⟨hn, hb⟩ := hr.holds.owned_empty hnone
    exact hne.elim (fun ⟨x, hx⟩ => hn x hx) fun ⟨v, hv⟩ => hb v hv
  have hnodes : (fun ti x => d.Live ti ∧ Reachable s ti x) = fun ti x => x ∈ (F ti).owned.nodes := by
    funext ti x
    obtain ⟨dead, hr⟩ := h.refines ti
    refine propext
      (Iff.trans (and_congr_right fun _ => hr.holds.reachable_iff) ⟨(·.2), fun hx => ⟨hroot (Or.inl ⟨x, hx⟩), hx⟩⟩)
  have hblocks : (fun ti v => d.Live ti ∧ Owns s ti v) = fun ti v => v ∈ (F ti).owned.blocks := by
    funext ti v
    obtain ⟨dead, hr⟩ := h.refines ti
    refine propext (Iff.trans (and_congr_right fun _ => hr.holds.owns_iff) ⟨(·.2), fun hv => ⟨hroot (Or.inr ⟨v, hv⟩), hv⟩⟩)
  refine ⟨?_, ?_⟩
  · rw [hnodes]
    exact h.nodes
  · rw [hblocks]
    exact h.blocks

/-! ### Any sequence of calls -/

end
end Directory
end Yakushima
