import Yakushima.Theorems.OwnershipWrites

/-! # Nodes that are not published yet

A thread prepares a node that no one else can reach like a sequential program: what it loads is what it stored. It
publishes the node with the store that makes it reachable. -/

namespace Yakushima
namespace Protocol
open M Lib

variable {α β : Type} {own own' : NodeId → Option Node} {K K' : Set NodeId} {H H' : Multiset (NodeId × Bool)}
  {Q : α → Set NodeId → Prop} {post : α → View → Prop} {g : View} {n m : NodeId} {nd nd' : Node} {b e : Bool}
  {fuel : Nat}

/-- No node is the thread's own. -/
def nothing : NodeId → Option Node := fun _ => none

/-! ### Rules -/

theorem loadOwn_followed {f : Field β} {k : β → M α} (hn : own n = some nd)
    (hk : discipline.Obeys post (k (nd.get f)) ⟨H, own, K, e⟩) :
    discipline.Obeys post (load n f >>= k) ⟨H, own, K, e⟩ := by
  intro y
  by_cases hy : y = nd.get f
  · subst hy
    exact Or.inr ⟨_, ⟨_, _, Or.inl rfl, Or.inr ⟨Option.isSome_of_eq_some hn, rfl⟩, Or.inl rfl⟩, hk⟩
  · exact Or.inl (Or.inl ⟨nd, hn, hy⟩)

theorem storeOwn_followed {f : Field β} {x : β} {k : Unit → M α} (hn : own n = some nd)
    (hv : (nd.set f x).version = nd.version)
    (hk : discipline.Obeys post (k ()) ⟨H, Function.update own n (some (nd.set f x)), K, e⟩) :
    discipline.Obeys post (store n f x >>= k) ⟨H, own, K, e⟩ :=
  fun _ => Or.inr ⟨_, ⟨_, _, Or.inl rfl, Or.inr ⟨nd, hn, Or.inl ⟨Or.inl hv, rfl⟩⟩, Or.inl rfl⟩, hk⟩

theorem fetchAddOwn_followed {d : Nat} {k : Unit → M α} (hn : own n = some nd)
    (hk : discipline.Obeys post (k ()) ⟨H, Function.update own n (some (nd.set .nKeys ((nd.nKeys + d) % 256))), K, e⟩) :
    discipline.Obeys post (op (.fetchAddNKeys n d) >>= k) ⟨H, own, K, e⟩ :=
  fun _ => Or.inr ⟨_, ⟨_, _, Or.inl rfl, Or.inr ⟨nd, hn, Or.inl ⟨Or.inl rfl, rfl⟩⟩, Or.inl rfl⟩, hk⟩

theorem isBorderOwn_followed {k : Bool → M α} (hn : own n = some nd)
    (hk : discipline.Obeys post (k (decide (nd.kind = .border))) ⟨H, own, K, e⟩) :
    discipline.Obeys post (op (.isBorder n) >>= k) ⟨H, own, K, e⟩ := by
  intro y
  by_cases hy : y = decide (nd.kind = .border)
  · subst hy
    exact Or.inr ⟨_, ⟨_, _, Or.inl rfl, ⟨Or.inr (Option.isSome_of_eq_some hn), rfl⟩, Or.inl rfl⟩, hk⟩
  · exact Or.inl ⟨nd, hn, hy⟩

theorem newNode_followed {kind : Kind} {k : NodeId → M α}
    (hk : ∀ n, n ∉ K → own n = none → discipline.Obeys post (k n) ⟨H, Function.update own n (some (.fresh kind)), K, e⟩) :
    discipline.Obeys post (op (.newNode kind) >>= k) ⟨H, own, K, e⟩ := by
  intro n
  by_cases hn : View.Reaches ⟨H, own, K, e⟩ n
  · exact Or.inl hn
  · refine Or.inr ⟨_, ⟨_, _, Or.inl rfl, rfl, Or.inl rfl⟩, hk n (fun h => hn (Or.inl h)) ?_⟩
    exact Option.not_isSome_iff_eq_none.mp fun h => hn (Or.inr h)

theorem deleteNode_followed {k : Unit → M α} (hn : own n = some nd) (hl : nd.version.locked = false)
    (hk : discipline.Obeys post (k ()) ⟨H, Function.update own n none, K, e⟩) :
    discipline.Obeys post (op (.deleteNode n) >>= k) ⟨H, own, K, e⟩ :=
  fun _ => Or.inr ⟨_, ⟨_, _, Or.inl rfl, ⟨⟨nd, hn, hl⟩, rfl⟩, Or.inl rfl⟩, hk⟩

/-- The compare-and-swaps on the word of an own node that is not locked. -/
theorem updateOwn_followed {f : Version → Version} {k : Unit → M α} (hn : own n = some nd) (hl : nd.version.locked = false)
    (hf : (f nd.version).locked = false)
    (hk : discipline.Obeys post (k ()) ⟨H, Function.update own n (some (nd.set .version (f nd.version))), K, e⟩) :
    discipline.Obeys post (atomicUpdate fuel n f >>= k) ⟨H, own, K, e⟩ := by
  have hloop : ∀ fuel, discipline.Obeys post (casLoop n f fuel nd.version >>= k) ⟨H, own, K, e⟩ ∧
      ∀ v, v ≠ nd.version → discipline.Obeys post (casLoop n f fuel v >>= k) ⟨H, own, K, e⟩ := by
    intro fuel
    induction fuel with
    | zero => exact ⟨trivial, fun _ _ => trivial⟩
    | succ fuel ih =>
      have hno : ∀ v, discipline.Obeys post (casLoop n f fuel v >>= k) ⟨H, own, K, e⟩ := by
        intro v
        by_cases hv : v = nd.version
        · exact hv ▸ ih.1
        · exact ih.2 v hv
      refine ⟨?_, fun v hv => ?_⟩ <;> rintro ⟨stored, found⟩ <;> cases stored
      · exact Or.inr ⟨_, ⟨_, _, Or.inl rfl, Or.inl ⟨rfl, Or.inr (Option.isSome_of_eq_some hn), rfl⟩, Or.inl rfl⟩, hno found⟩
      · exact Or.inr ⟨_, ⟨_, _, Or.inl rfl, Or.inr ⟨rfl, Or.inr ⟨nd, hn, Or.inl ⟨Or.inr ⟨hl, hf⟩, rfl⟩⟩⟩, Or.inl rfl⟩, hk⟩
      · exact Or.inr ⟨_, ⟨_, _, Or.inl rfl, Or.inl ⟨rfl, Or.inr (Option.isSome_of_eq_some hn), rfl⟩, Or.inl rfl⟩, hno found⟩
      · exact Or.inl ⟨rfl, nd, hn, fun h => hv h.symm⟩
  rw [atomicUpdate, Prog.bind_assoc]
  exact loadOwn_followed hn (hloop fuel).1

theorem lockOwn_followed {k : Unit → M α} (hn : own n = some nd) (hl : nd.version.locked = false)
    (hk : discipline.Obeys post (k ())
      ⟨(n, nd.version.dirty) ::ₘ H, Function.update own n (some (nd.set .version (.setLocked true nd.version))), K, e⟩) :
    discipline.Obeys post (lock n fuel >>= k) ⟨H, own, K, e⟩ := by
  induction fuel with
  | zero => exact trivial
  | succ fuel ih =>
    rw [lock, Prog.bind_assoc]
    refine loadOwn_followed hn ?_
    rw [if_neg (by rw [Node.get, hl]; exact Bool.false_ne_true), Prog.bind_assoc]
    rintro ⟨stored, found⟩
    cases stored with
    | false => exact Or.inr ⟨_, ⟨_, _, Or.inl rfl, Or.inl ⟨rfl, Or.inr (Option.isSome_of_eq_some hn), rfl⟩, Or.inl rfl⟩, ih⟩
    | true => exact Or.inr ⟨_, ⟨_, _, Or.inl rfl, Or.inr ⟨rfl, Or.inr ⟨nd, hn, Or.inr ⟨hl, rfl, rfl⟩⟩⟩, Or.inl rfl⟩, hk⟩

/-! ### Publication -/

theorem publish_publish : g.publish.publish = g.publish := by
  have hK : g.publish.publish.known = g.publish.known := Set.ext fun _ => or_iff_left Bool.false_ne_true
  exact congrArg (fun K => (⟨g.held, nothing, K, g.failed⟩ : View)) hK

theorem publishes_publish {g' : View} (h : g.publish.Publishes g') : g' = g.publish := by
  rcases h with h | ⟨-, h⟩
  · exact h
  · exact h.trans publish_publish

/-- What is impossible after the publication is so before. -/
theorem impossible_publish {o : Op β} {y : β} (h : Impossible o y g.publish) : Impossible o y g := by
  cases o with
  | load n f =>
    rcases h with ⟨nd, hnd, -⟩ | h
    · cases hnd
    · exact Or.inr h
  | casVersion n expected desired =>
    obtain ⟨-, nd, hnd, -⟩ := h
    cases hnd
  | isBorder n =>
    obtain ⟨nd, hnd, -⟩ := h
    cases hnd
  | newNode kind =>
    rcases h with h | h
    · exact h
    · cases h
  | _ => exact h

/-- The own nodes are published with the next operation. -/
theorem publish_followed {p : M α} (hc : Closed g.own g.known) (hstep : ∀ a, p ≠ .ret a)
    (hp : discipline.Obeys post p g.publish) : discipline.Obeys post p g := by
  cases p with
  | ret a => exact absurd rfl (hstep a)
  | halt => exact trivial
  | step o k =>
    intro y
    rcases hp y with hy | ⟨g', ⟨g₁, g₂, h₁, ha, h₂⟩, hk⟩
    · exact Or.inl (impossible_publish hy)
    · obtain rfl := publishes_publish h₁
      exact Or.inr ⟨g', ⟨_, g₂, Or.inr ⟨hc, rfl⟩, ha, h₂⟩, hk⟩

/-- An own node changes and may be published still. -/
theorem closed_update (hc : Closed own K) (hd : nd'.version.dirty = true → nd'.version.locked = true)
    (hp : ∀ m, nd'.Points m → m ∈ K ∨ m = n ∨ (own m).isSome = true) : Closed (Function.update own n (some nd')) K := by
  have hsome : ∀ {m}, m = n ∨ (own m).isSome = true → (Function.update own n (some nd') m).isSome = true := by
    intro m hm
    by_cases hmn : m = n
    · rw [hmn, Function.update_self]
      rfl
    · rw [Function.update_of_ne hmn]
      exact hm.resolve_left hmn
  intro m md hm
  by_cases hmn : m = n
  · subst hmn
    have ho : Function.update own m (some nd') m = some md := hm
    rw [Function.update_self] at ho
    cases ho
    exact ⟨hd, fun k hk => (hp k hk).imp_right hsome⟩
  · have ho : own m = some md := (Function.update_of_ne hmn _ _).symm.trans hm
    exact ⟨(hc m md ho).1, fun k hk => ((hc m md ho).2 k hk).imp_right fun hk => hsome (Or.inr hk)⟩

theorem closed_nothing : Closed nothing K := nofun

theorem points_fresh {kind : Kind} {S : NodeId → Prop} (m : NodeId) (h : (Node.fresh kind).Points m) : S m := by
  obtain ⟨δ, f, hf⟩ := h
  cases f <;> cases hf

/-! ### Drafts -/

/-- What is relied on of an own node: its class, its word, its permutation, its first slot and where it points. -/
structure Drafted (kind : Kind) (w : Version) (body : Nat) (first : LinkOrValue) (S : NodeId → Prop)
    (nd : Node) : Prop where
  kind : nd.kind = kind
  word : nd.version = w
  body : nd.permutation = body
  first : nd.lv 0 = first
  points : ∀ m, nd.Points m → S m

/-- The members that a draft does not rely on. -/
def Plain {β : Type} : Field β → Prop
  | .version | .permutation | .lv _ => False
  | _ => True

section Drafted
variable {kind : Kind} {w : Version} {body : Nat} {first : LinkOrValue} {S S' : NodeId → Prop}

theorem drafted_fresh : Drafted kind .init 0 .empty S (.fresh kind) := ⟨rfl, rfl, rfl, rfl, points_fresh⟩

theorem Drafted.mono (hd : Drafted kind w body first S nd) (hS : ∀ m, S m → S' m) : Drafted kind w body first S' nd :=
  ⟨hd.kind, hd.word, hd.body, hd.first, fun m hm => hS m (hd.points m hm)⟩

theorem draft_store {f : Field β} {x : β} {k : Unit → M α} (hf : Plain f) (hd : Drafted kind w body first S nd)
    (hx : ∀ m, f.ptr x = some m → S m)
    (hk : ∀ nd', Drafted kind w body first S nd' →
      discipline.Obeys post (k ()) ⟨H, Function.update own n (some nd'), K, e⟩) :
    discipline.Obeys post (store n f x >>= k) ⟨H, Function.update own n (some nd), K, e⟩ := by
  have hsame : (nd.set f x).kind = nd.kind ∧ (nd.set f x).version = nd.version ∧ (nd.set f x).permutation = nd.permutation ∧
      (nd.set f x).lv = nd.lv := by
    cases f <;> first | exact absurd hf id | exact ⟨rfl, rfl, rfl, rfl⟩
  refine storeOwn_followed (Function.update_self _ _ _) hsame.2.1 ?_
  rw [Function.update_idem]
  exact hk _
    ⟨hsame.1.trans hd.kind, hsame.2.1.trans hd.word, hsame.2.2.1.trans hd.body, (congrFun hsame.2.2.2 0).trans hd.first,
    fun m hm => (points_set hm).elim (hd.points m) (hx m)⟩

theorem draft_storePermutation {x : Nat} {k : Unit → M α} (hd : Drafted kind w body first S nd)
    (hk : ∀ nd', Drafted kind w x first S nd' → discipline.Obeys post (k ()) ⟨H, Function.update own n (some nd'), K, e⟩) :
    discipline.Obeys post (store n .permutation x >>= k) ⟨H, Function.update own n (some nd), K, e⟩ := by
  refine storeOwn_followed (Function.update_self _ _ _) rfl ?_
  rw [Function.update_idem]
  exact hk _ ⟨hd.kind, hd.word, rfl, hd.first, fun m hm => (points_set hm).elim (hd.points m) nofun⟩

theorem draft_storeLv {x : LinkOrValue} {k : Unit → M α} (hd : Drafted kind w body first S nd)
    (hx : ∀ m, x.getNextLayer = some m → S m)
    (hk : ∀ nd', Drafted kind w body x S nd' → discipline.Obeys post (k ()) ⟨H, Function.update own n (some nd'), K, e⟩) :
    discipline.Obeys post (store n (.lv 0) x >>= k) ⟨H, Function.update own n (some nd), K, e⟩ := by
  refine storeOwn_followed (Function.update_self _ _ _) rfl ?_
  rw [Function.update_idem]
  exact hk _ ⟨hd.kind, hd.word, hd.body, rfl, fun m hm => (points_set hm).elim (hd.points m) (hx m)⟩

theorem draft_update {f : Version → Version} {k : Unit → M α} (hd : Drafted kind w body first S nd) (hl : w.locked = false)
    (hf : (f w).locked = false)
    (hk : ∀ nd', Drafted kind (f w) body first S nd' →
      discipline.Obeys post (k ()) ⟨H, Function.update own n (some nd'), K, e⟩) :
    discipline.Obeys post (atomicUpdate fuel n f >>= k) ⟨H, Function.update own n (some nd), K, e⟩ := by
  obtain ⟨hkind, rfl, hbody, hfirst, hpoints⟩ := hd
  refine updateOwn_followed (Function.update_self _ _ _) hl hf ?_
  rw [Function.update_idem]
  exact hk _ ⟨hkind, rfl, hbody, hfirst, fun m hm => (points_set hm).elim (hpoints m) nofun⟩

theorem draft_lock {k : Unit → M α} (hd : Drafted kind w body first S nd) (hl : w.locked = false)
    (hk : ∀ nd', Drafted kind (.setLocked true w) body first S nd' →
      discipline.Obeys post (k ()) ⟨(n, w.dirty) ::ₘ H, Function.update own n (some nd'), K, e⟩) :
    discipline.Obeys post (lock n fuel >>= k) ⟨H, Function.update own n (some nd), K, e⟩ := by
  obtain ⟨hkind, rfl, hbody, hfirst, hpoints⟩ := hd
  refine lockOwn_followed (Function.update_self _ _ _) hl ?_
  rw [Function.update_idem]
  exact hk _ ⟨hkind, rfl, hbody, hfirst, fun m hm => (points_set hm).elim (hpoints m) nofun⟩

theorem draft_fetchAdd {d : Nat} {k : Unit → M α} (hd : Drafted kind w body first S nd)
    (hk : ∀ nd', Drafted kind w body first S nd' →
      discipline.Obeys post (k ()) ⟨H, Function.update own n (some nd'), K, e⟩) :
    discipline.Obeys post (op (.fetchAddNKeys n d) >>= k) ⟨H, Function.update own n (some nd), K, e⟩ := by
  refine fetchAddOwn_followed (Function.update_self _ _ _) ?_
  rw [Function.update_idem]
  exact hk _ ⟨hd.kind, hd.word, hd.body, hd.first, fun m hm => (points_set hm).elim (hd.points m) nofun⟩

theorem Drafted.closed (hd : Drafted kind w body first (fun m => m ∈ K) nd) (hclean : w.dirty = true → w.locked = true) :
    Closed (Function.update nothing n (some nd)) K :=
  closed_update closed_nothing (by rwa [hd.word]) fun m hm => Or.inl (hd.points m hm)

theorem reaches_update : (Function.update own n (some nd) n).isSome = true := by
  rw [Function.update_self]
  rfl

/-- A draft that is the only own node is published. -/
theorem draft_publish {p : M α} (hd : Drafted kind w body first (fun m => m ∈ K) nd)
    (hclean : w.dirty = true → w.locked = true) (hstep : ∀ a, p ≠ .ret a)
    (hp : ∀ K', K ⊆ K' → n ∈ K' → discipline.Obeys post p ⟨H, nothing, K', e⟩) :
    discipline.Obeys post p ⟨H, Function.update nothing n (some nd), K, e⟩ :=
  publish_followed (hd.closed hclean) hstep (hp _ (fun _ hm => Or.inl hm) (Or.inr reaches_update))

/-- A draft gets a locked word and is published. -/
theorem draft_storeWord {v : Version} {k : Unit → M α} (hd : Drafted kind w body first (fun m => m ∈ K) nd)
    (hl : w.locked = false) (hv : v.locked = true)
    (hk : ∀ K', K ⊆ K' → n ∈ K' → discipline.Obeys post (k ()) ⟨(n, v.dirty) ::ₘ H, nothing, K', e⟩) :
    discipline.Obeys post (store n .version v >>= k) ⟨H, Function.update nothing n (some nd), K, e⟩ := by
  obtain ⟨hkind, rfl, hbody, hfirst, hpoints⟩ := hd
  have hd' : Drafted kind v body first (fun m => m ∈ K) (nd.set .version v) :=
    ⟨hkind, rfl, hbody, hfirst, fun m hm => (points_set hm).elim (hpoints m) nofun⟩
  have hacts : Acts (.store n .version v) () ⟨H, Function.update nothing n (some nd), K, e⟩
      ⟨(n, v.dirty) ::ₘ H, Function.update nothing n (some (nd.set .version v)), K, e⟩ :=
    Or.inr ⟨nd, Function.update_self _ _ _, Or.inr ⟨hl, hv, by rw [View.setOwn, Function.update_idem]; rfl⟩⟩
  refine fun _ => Or.inr
    ⟨_, ⟨_, _, Or.inl rfl, hacts, Or.inr ⟨hd'.closed fun _ => hv, rfl⟩⟩,
    hk _ (fun _ hm => Or.inl hm) (Or.inr reaches_update)⟩

end Drafted

/-! ### A new interior -/

/-- `create_interior_parent` answers an interior that is locked and marked. -/
theorem keeps_createInteriorParent {f : NodeId → M α} {left right : NodeId} {slice : KeySlice} {length : Nat}
    (hl : left ∈ K) (hr : right ∈ K) (hf : ∀ ni K', K ⊆ K' → ni ∈ K' → Keeps nothing K' ((ni, true) ::ₘ H) (f ni) H' Q) :
    Keeps nothing K H (createInteriorParent fuel left right slice length >>= f) H' Q := by
  rw [createInteriorParent]
  simp only [Prog.bind_assoc, setKey]
  refine Keeps.bind (keeps_setVersionRoot hl) fun _ K₁ hK₁ _ => ?_
  refine Keeps.bind (keeps_setVersionRoot (hK₁ hr)) fun _ K₂ hK₂ _ => ?_
  have hK : K ⊆ K₂ := hK₁.trans hK₂
  intro e
  refine newNode_followed fun ni _ _ => ?_
  have hd : Drafted .interior .init 0 .empty (fun m => m ∈ K₂) (.fresh .interior) := drafted_fresh
  refine draft_update hd rfl rfl fun nd hd => ?_
  refine draft_update hd rfl rfl fun nd hd => ?_
  refine draft_update hd rfl rfl fun nd hd => ?_
  refine draft_lock hd rfl fun nd hd => ?_
  refine draft_store trivial hd nofun fun nd hd => ?_
  refine draft_store trivial hd nofun fun nd hd => ?_
  refine draft_store trivial hd (knows_some (hK hl)) fun nd hd => ?_
  refine draft_store trivial hd (knows_some (hK hr)) fun nd hd => ?_
  refine draft_fetchAdd hd fun nd hd => ?_
  refine draft_publish hd (fun _ => rfl) nofun fun K₃ hK₃ hni => ?_
  replace hK := hK.trans hK₃
  refine (Keeps.store (f := .parent) (hK hl) (fun _ => trivial) (knows_some hni)).followed fun _ K₄ e₄ hK₄ he₄ _ => ?_
  refine (Keeps.store (f := .parent) (hK₄ (hK hr)) (fun _ => trivial) (knows_some (hK₄ hni))).followed
    fun _ K₅ e₅ hK₅ he₅ _ => ?_
  exact (hf ni K₅ (hK.trans (hK₄.trans hK₅)) (hK₅ (hK₄ hni))).after (hK₃.trans (hK₄.trans hK₅)) (he₅ ∘ he₄)

theorem keeps_createInteriorParentOfBorder {f : NodeId → M α} {left right : NodeId} (hl : left ∈ K) (hr : right ∈ K)
    (hf : ∀ ni K', K ⊆ K' → ni ∈ K' → Keeps nothing K' ((ni, true) ::ₘ H) (f ni) H' Q) :
    Keeps nothing K H (createInteriorParentOfBorder fuel left right >>= f) H' Q := by
  rw [createInteriorParentOfBorder]
  simp only [Prog.bind_assoc]
  refine Keeps.bind (Keeps.load hr) fun slice K₁ hK₁ _ => ?_
  refine Keeps.bind (Keeps.load (hK₁ hr)) fun length K₂ hK₂ _ => ?_
  have hK : K ⊆ K₂ := hK₁.trans hK₂
  exact keeps_createInteriorParent (hK hl) (hK hr) fun ni K' hK' => hf ni K' (hK.trans hK')

/-! ### A branch of new borders -/

/-- The own borders from `n` down, each with one entry that leads to the next. -/
inductive Branch (own : NodeId → Option Node) : NodeId → List NodeId → Prop where
  | leaf {n : NodeId} {nd : Node} (mine : own n = some nd) (kind : nd.kind = .border)
      (slots : Permutation.slotsOf nd.permutation = [0])
      (free : nd.version.locked = false) (first : (nd.lv 0).getNextLayer = none) : Branch own n []
  | link {n : NodeId} {nd : Node} {c : NodeId} {l : List NodeId} (mine : own n = some nd) (kind : nd.kind = .border)
      (slots : Permutation.slotsOf nd.permutation = [0]) (free : nd.version.locked = false) (first : nd.lv 0 = .link c)
      (below : Branch own c l) (above : n ∉ c :: l) : Branch own n (c :: l)

theorem Branch.frame {c : NodeId} {l : List NodeId} (h : Branch own c l) (hsame : ∀ m ∈ c :: l, own' m = own m) :
    Branch own' c l := by
  induction h with
  | leaf ho hkind hslots hfree hfirst => exact .leaf ((hsame _ List.mem_cons_self).trans ho) hkind hslots hfree hfirst
  | link ho hkind hslots hfree hfirst _ habove ih =>
    exact .link ((hsame _ List.mem_cons_self).trans ho) hkind hslots hfree hfirst
      (ih fun m hm => hsame m (List.mem_cons_of_mem _ hm)) habove

/-- The parent of the first border changes. -/
theorem Branch.setParent {c : NodeId} {l : List NodeId} {p : Ptr} (h : Branch own c l) (ho : own c = some nd) :
    Branch (Function.update own c (some (nd.set .parent p))) c l := by
  cases h with
  | leaf ho' hkind hslots hfree hfirst =>
    obtain rfl := Option.some.inj (ho.symm.trans ho')
    exact .leaf (Function.update_self _ _ _) hkind hslots hfree hfirst
  | link ho' hkind hslots hfree hfirst hbelow habove =>
    obtain rfl := Option.some.inj (ho.symm.trans ho')
    exact .link (Function.update_self _ _ _) hkind hslots hfree hfirst
      (hbelow.frame fun m hm => Function.update_of_ne (ne_of_mem_of_not_mem hm habove) _ _) habove

theorem Branch.own_some {c : NodeId} {l : List NodeId} (h : Branch own c l) : ∃ nd, own c = some nd := by
  cases h with
  | leaf ho => exact ⟨_, ho⟩
  | link ho => exact ⟨_, ho⟩

section Drafted
variable {w : Version} {first : LinkOrValue} {S : NodeId → Prop}

/-- The permutation of a border with one entry in slot 0. -/
def oneEntry : Nat := Permutation.insert (Permutation.incKeyNum 0) 0 0

theorem slotsOf_oneEntry : Permutation.slotsOf oneEntry = [0] := by decide

theorem draft_initBorderHead {root : Bool} {k : Nat → M α} (hd : Drafted .border .init 0 first S nd)
    (hk : ∀ nd' w, w.locked = false → w.dirty = false → Drafted .border w 0 first S nd' →
      discipline.Obeys post (k 0) ⟨H, Function.update own n (some nd'), K, e⟩) :
    discipline.Obeys post (initBorderHead fuel n root >>= k) ⟨H, Function.update own n (some nd), K, e⟩ := by
  rw [initBorderHead, initBorder]
  simp only [Prog.bind_assoc]
  refine draft_update hd rfl rfl fun nd hd => ?_
  refine draft_update hd rfl rfl fun nd hd => ?_
  refine draft_update hd rfl rfl fun nd hd => ?_
  refine draft_update hd rfl rfl fun nd hd => ?_
  rw [getEmptySlot, Prog.bind_assoc]
  refine loadOwn_followed (Function.update_self _ _ _) ?_
  rw [show nd.get .permutation = 0 from hd.body]
  exact hk nd _ rfl rfl hd

/-- The entry in slot 0 gets rank 0. -/
theorem draft_addEntry {k : Unit → M α} (hd : Drafted .border w 0 first S nd)
    (hk : ∀ nd', Drafted .border w oneEntry first S nd' →
      discipline.Obeys post (k ()) ⟨H, Function.update own n (some nd'), K, e⟩) :
    discipline.Obeys post (incKeyNum n >>= fun _ => insertRank n 0 0 >>= k) ⟨H, Function.update own n (some nd), K, e⟩ := by
  rw [incKeyNum, insertRank]
  simp only [Prog.bind_assoc]
  refine loadOwn_followed (Function.update_self _ _ _) ?_
  rw [show nd.get .permutation = 0 from hd.body]
  refine draft_storePermutation hd fun nd hd => ?_
  refine loadOwn_followed (Function.update_self _ _ _) ?_
  rw [show nd.get .permutation = _ from hd.body]
  exact draft_storePermutation hd hk

end Drafted

/-- What a thread has once it stored a key in the own border `n`, and in the new borders `l` below it. -/
structure Grown (own : NodeId → Option Node) (K : Set NodeId) (n : NodeId) (l : List NodeId)
    (own' : NodeId → Option Node) (K' : Set NodeId) :
    Prop where
  known : K ⊆ K'
  closed : Closed own' K'
  branch : Branch own' n l
  others : ∀ m ∉ n :: l, own' m = own m
  fresh : ∀ m ∈ l, own m = none

/-- The nodes that an own node `n` may point to. -/
def Within (own : NodeId → Option Node) (K : Set NodeId) (n m : NodeId) : Prop := m ∈ K ∨ m = n ∨ (own m).isSome = true

/-- `insert_lv_at` of a new border, up to what follows it. -/
def Grows (fuel k : Nat) : Prop :=
  ∀ {γ : Type} {own : NodeId → Option Node} {K : Set NodeId} {H : Multiset (NodeId × Bool)} {n : NodeId} {nd : Node}
  {e : Bool} {w : Version} {key : Key} {v : ValuePtr} {f : LinkOrValue → M γ} {post : γ → View → Prop},
  Drafted .border w 0 .empty (Within own K n) nd → w.locked = false → w.dirty = false → Closed own K →
  (∀ created own' K' e' l, (e = true → e' = true) → Grown own K n l own' K' →
    discipline.Obeys post (f created) ⟨H, own', K', e'⟩) →
  discipline.Obeys post (insertLvAt fuel k n 0 key v 0 >>= f) ⟨H, Function.update own n (some nd), K, e⟩

/-- A new border with the rest of a key, under the border `n`. -/
theorem newLayer_followed {k : Nat} (hg : Grows fuel k) {key : Key} {v : ValuePtr} {f : NodeId → LinkOrValue → M α}
    (hn : n ∈ K ∨ (own n).isSome = true) (hc : Closed own K)
    (hf : ∀ nb created own' K' e' l, own nb = none → (e = true → e' = true) → Grown own K nb l own' K' →
      discipline.Obeys post (f nb created) ⟨H, own', K', e'⟩) :
    discipline.Obeys post (op (.newNode .border) >>= fun nb => initBorderHead fuel nb true >>= fun slot =>
      insertLvAt fuel k nb slot key v 0 >>= fun created => store nb .parent (some n) >>= fun _ => f nb created)
        ⟨H, own, K, e⟩ := by
  refine newNode_followed fun nb _ hnone => ?_
  have hd : Drafted .border .init 0 .empty (Within own K nb) (.fresh .border) := drafted_fresh
  refine draft_initBorderHead hd fun nd w hl hdirty hd => ?_
  refine hg hd hl hdirty hc fun created own₁ K₁ e₁ l he h => ?_
  obtain ⟨nd₁, ho⟩ := h.branch.own_some
  refine storeOwn_followed ho rfl (hf nb created _ K₁ e₁ l hnone he { h with closed := ?_, branch := ?_, others := ?_ })
  · refine closed_update h.closed (h.closed nb nd₁ ho).1 fun m hm => ?_
    rcases points_set hm with hm | hm
    · exact ((h.closed nb nd₁ ho).2 m hm).imp_right Or.inr
    · obtain rfl : n = m := Option.some.inj hm
      refine hn.imp (fun hn => h.known hn) fun hn => Or.inr ?_
      rw [h.others n (List.not_mem_cons_of_ne_of_not_mem ?_ fun hl => ?_)]
      · exact hn
      · rintro rfl
        rw [hnone] at hn
        cases hn
      · rw [h.fresh n hl] at hn
        cases hn
  · exact h.branch.setParent ho
  · intro m hm
    rw [Function.update_of_ne (List.ne_of_not_mem_cons hm)]
    exact h.others m hm

theorem grows (k : Nat) : Grows fuel k := by
  induction k with
  | zero => exact fun _ _ _ _ _ => trivial
  | succ k ih =>
    intro γ own K H n nd e w key v f post hd hl hdirty hc hf
    have hclean : ∀ {nd : Node}, nd.version = w → nd.version.dirty = true → nd.version.locked = true := by
      intro nd hw hdt
      rw [hw, hdirty] at hdt
      cases hdt
    rw [insertLvAt]
    simp only [Prog.bind_assoc]
    split
    · simp only [Prog.bind_assoc]
      refine draft_store trivial hd nofun fun nd hd => ?_
      refine draft_store trivial hd nofun fun nd hd => ?_
      have hc₁ : Closed (Function.update own n (some nd)) K := closed_update hc (hclean hd.word) hd.points
      refine newLayer_followed ih (Or.inr (by rw [Function.update_self]; rfl)) hc₁
        fun nb created own₁ K₁ e₁ l hnb he h => ?_
      have hne : n ∉ nb :: l := by
        refine List.not_mem_cons_of_ne_of_not_mem (fun hnn => ?_) fun hnl => ?_
        · rw [← hnn, Function.update_self] at hnb
          cases hnb
        · have hnone := h.fresh n hnl
          rw [Function.update_self] at hnone
          cases hnone
      -- The nodes that were there are there still.
      have hkept : ∀ m, Within own K n m → m ∈ K₁ ∨ m = n ∨ (own₁ m).isSome = true := by
        rintro m (hm | hm | hm)
        · exact Or.inl (h.known hm)
        · exact Or.inr (Or.inl hm)
        · by_cases hmn : m = n
          · exact Or.inr (Or.inl hmn)
          · have hsome : (Function.update own n (some nd) m).isSome = true := by rwa [Function.update_of_ne hmn]
            refine Or.inr (Or.inr ?_)
            rw [h.others m (List.not_mem_cons_of_ne_of_not_mem ?_ fun hml => ?_)]
            · exact hsome
            · rintro rfl
              rw [hnb] at hsome
              cases hsome
            · rw [h.fresh m hml] at hsome
              cases hsome
      have hn₁ : own₁ = Function.update own₁ n (some nd) := by
        rw [← Function.update_self n (some nd) own, ← h.others n hne, Function.update_eq_self]
      rw [hn₁]
      have hd₁ : Drafted .border w 0 .empty (Within own₁ K₁ n) nd := hd.mono hkept
      obtain ⟨nd_b, hb⟩ := h.branch.own_some
      refine draft_storeLv hd₁ (fun m hm => ?_) fun nd₂ hd₂ => ?_
      · obtain rfl : nb = m := Option.some.inj hm
        exact Or.inr (Or.inr (Option.isSome_of_eq_some hb))
      · refine draft_addEntry hd₂ fun nd₃ hd₃ => ?_
        have hbelow : Branch (Function.update own₁ n (some nd₃)) nb l :=
          h.branch.frame fun m hm => Function.update_of_ne (ne_of_mem_of_not_mem hm hne) _ _
        refine hf created _ K₁ e₁ (nb :: l) he
          ⟨h.known, closed_update h.closed (hclean hd₃.word) hd₃.points, ?_, fun m hm => ?_, fun m hm => ?_⟩
        · refine .link (Function.update_self _ _ _) hd₃.kind ?_ ?_ hd₃.first hbelow hne
          · rw [hd₃.body]
            exact slotsOf_oneEntry
          · rw [hd₃.word, hl]
        · obtain ⟨hmn, hml⟩ := List.ne_and_not_mem_of_not_mem_cons hm
          rw [Function.update_of_ne hmn, h.others m hml, Function.update_of_ne hmn]
        · have hnone : Function.update own n (some nd) m = none := by
            rcases List.mem_cons.mp hm with rfl | hm
            · exact hnb
            · exact h.fresh m hm
          rwa [Function.update_of_ne (ne_of_mem_of_not_mem hm hne)] at hnone
    · simp only [Prog.bind_assoc]
      refine draft_store trivial hd nofun fun nd hd => ?_
      refine draft_store trivial hd nofun fun nd hd => ?_
      rw [setValue]
      simp only [Prog.bind_assoc]
      refine loadOwn_followed (Function.update_self _ _ _) ?_
      rw [show nd.get (.lv 0) = .empty from hd.first]
      refine draft_storeLv hd nofun fun nd hd => ?_
      refine draft_addEntry hd fun nd hd => ?_
      refine hf v _ K e [] id ⟨Set.Subset.refl _, closed_update hc (hclean hd.word) hd.points, ?_, fun m hm => ?_, nofun⟩
      · refine .leaf (Function.update_self _ _ _) hd.kind ?_ ?_ ?_
        · rw [hd.body]
          exact slotsOf_oneEntry
        · rw [hd.word, hl]
        · rw [hd.first]
          rfl
      · rw [Function.update_of_ne (List.ne_of_not_mem_cons hm)]

/-- `insert_lv_at` of a border that the thread has locked and marked. -/
theorem keeps_insertLvAt {k index rank : Nat} {key : Key} {v : ValuePtr} (hn : n ∈ K) (hb : (n, true) ∈ H) :
    Keeps nothing K H (insertLvAt fuel k n index key v rank) H Any := by
  cases k with
  | zero => exact Keeps.halt
  | succ k =>
    rw [insertLvAt]
    refine Keeps.bind (?_ : Keeps nothing K H _ H Any) fun created K₁ hK₁ _ => ?_
    · split
      · refine Keeps.bind (Keeps.store hn (fun _ => hb) knows_none) fun _ K₁ hK₁ _ => ?_
        refine Keeps.bind (Keeps.store (hK₁ hn) (fun _ => hb) knows_none) fun _ K₂ hK₂ _ => ?_
        replace hn := hK₂ (hK₁ hn)
        intro e
        refine newLayer_followed (grows k) (Or.inl hn) closed_nothing fun nb created own' K' e' l _ he h => ?_
        refine publish_followed h.closed nofun ?_
        have hK' : K₂ ⊆ (⟨H, own', K', e'⟩ : View).publish.known := fun m hm => Or.inl (h.known hm)
        obtain ⟨nd, ho⟩ := h.branch.own_some
        refine Keeps.after
          (Keeps.bind (Keeps.store (hK' hn) (fun _ => ⟨true, hb⟩) (knows_some ?_)) fun _ _ _ _ => Keeps.ret trivial) hK' he
        exact Or.inr (Option.isSome_of_eq_some ho)
      · refine Keeps.bind (Keeps.store hn (fun _ => hb) knows_none) fun _ K₁ hK₁ _ => ?_
        refine Keeps.bind (Keeps.store (hK₁ hn) (fun _ => hb) knows_none) fun _ K₂ hK₂ _ => ?_
        exact Keeps.bind (keeps_setValue (hK₂ (hK₁ hn)) hb) fun _ _ _ _ => Keeps.ret trivial
    refine Keeps.bind (keeps_incKeyNum (hK₁ hn) hb) fun _ K₂ hK₂ _ => ?_
    exact Keeps.bind (keeps_insertRank (hK₂ (hK₁ hn)) hb) fun _ _ _ _ => Keeps.ret trivial

end Protocol
end Yakushima
