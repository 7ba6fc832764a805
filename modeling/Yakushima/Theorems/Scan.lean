import Yakushima.Theorems.KeyOrder

/-! # A scan of a forest

On a tree at rest no check of `scan` fails, and its answer is a function of the forest that the memory holds: the
borders of each layer are walked from the one for the left key on, and a link leads into the layer behind it. -/

namespace Yakushima
open M Permutation

/-! ### The borders from a key on -/

namespace BTree

mutual
/-- The borders from the one for a code on. -/
def fromCode (code : Nat) : BTree → List (NodeId × List Entry)
  | border i es => [(i, es)]
  | interior _ f r => (fromRest code r).getD (fromCode code f ++ bordersRest r)

/-- The borders from the one for a code on, if it is not left of all pivots. -/
def fromRest (code : Nat) : List (KeyTuple × BTree) → Option (List (NodeId × List Entry))
  | [] => none
  | (k, t) :: r => if code < k.code then none else some ((fromRest code r).getD (fromCode code t ++ bordersRest r))
end

end BTree

section
variable {code : Nat} {b : NodeId} {es : List Entry}

theorem spine_fromCode {l : List (BTree × KeyTuple)} {u : BTree} {r : List (KeyTuple × BTree)}
    (hl : ∀ x ∈ l, x.2.code ≤ code) (hr : ∀ x ∈ r, code < x.1.code) :
    (BTree.fromRest code ((Frame.spine l u).2 ++ r)).getD
    ((Frame.spine l u).1.fromCode code ++ BTree.bordersRest ((Frame.spine l u).2 ++ r)) =
      u.fromCode code ++ BTree.bordersRest r := by
  induction l with
  | nil =>
    have hnone : BTree.fromRest code r = none := by
      cases r with
      | nil => rfl
      | cons x r => exact if_pos (hr x List.mem_cons_self)
    simp [Frame.spine, hnone]
  | cons x l ih =>
    obtain ⟨w, k⟩ := x
    have hk : ¬ code < k.code := Nat.not_lt.mpr (hl (w, k) List.mem_cons_self)
    simp only [Frame.spine, List.cons_append, BTree.fromRest, if_neg hk, Option.getD_some]
    exact ih fun x hx => hl x (List.mem_cons_of_mem _ hx)

theorem Frame.plug_fromCode {f : Frame} {u : BTree} (hl : ∀ x ∈ f.left, x.2.code ≤ code)
    (hr : ∀ x ∈ f.right, code < x.1.code) :
    (f.plug u).fromCode code = u.fromCode code ++ f.bordersRight := by
  rw [plug, BTree.fromCode, spine_fromCode hl hr, BTree.bordersRest_eq]
  rfl

theorem Ctx.plug_fromCode {c : Ctx} (hb : Ctx.Between c code) (u : BTree) :
    (Ctx.plug c u).fromCode code = u.fromCode code ++ Ctx.bordersRight c := by
  induction c generalizing u with
  | nil => simp [plug, bordersRight]
  | cons f c ih =>
    obtain ⟨hl, hr⟩ := hb
    simp only [flatLeft, flatRight, List.mem_append] at hl hr
    rw [plug, ih ⟨fun m hm => hl m (Or.inl hm), fun m hm => hr m (Or.inr hm)⟩, Frame.plug_fromCode, bordersRight,
      List.append_assoc]
    · intro x hx
      have := hl x.2.mark (Or.inr (List.mem_flatMap.mpr ⟨x, hx, by simp⟩))
      simp only [KeyTuple.mark] at this
      omega
    · intro x hx
      have := hr x.1.mark (Or.inl (List.mem_flatMap.mpr ⟨x, hx, by simp⟩))
      simp only [KeyTuple.mark] at this
      omega

/-- The borders from the one that a search for the code finds. -/
theorem fromCode_eq {c : Ctx} (hb : Ctx.Between c code) :
    (Ctx.plug c (.border b es)).fromCode code = (b, es) :: Ctx.bordersRight c := by
  rw [Ctx.plug_fromCode hb]
  rfl

end

/-! ### The answer of a scan as a function -/

def State.versionOf (s : State) (b : NodeId) : Version := ((s.node b).map (·.version)).getD .init

/-- What `in_range` appends. -/
def ScanOut.push (out : ScanOut) (args : ScanArgs) (ver : Version) (b : NodeId) (key : Key) (v : ValuePtr)
    (len : Nat) : ScanOut :=
  ({ out with tuples := out.tuples ++ [(key, v, len)] } : ScanOut).record args ver b

/-- What a border appends when all its entries are done. -/
def ScanOut.close (out : ScanOut) (args : ScanArgs) (ver : Version) (b : NodeId) (pushed : Bool) : ScanOut :=
  if pushed then out else out.record args ver b

section
variable (s : State) (A : Forest) (next : KeySlice → ScanArgs → ScanOut → ScanOut) (π : Path) (args : ScanArgs)

/-- The loop of `scan_border` over the entries of the border `b`. -/
def entriesEnd (b : NodeId) : List Entry → ScanOut → Bool → EntriesEnd
  | [], out, pushed => .finished out pushed
  | ⟨k, .layer⟩ :: es, out, pushed =>
    match leftArg args k.slice with
    | none => entriesEnd b es out pushed
    | some (lKey, lEnd) => match rightArg args (keyAt π k) with
      | none => .scanEnd out
      | some (rKey, rEnd) => entriesEnd b es (next k.slice { args with lKey, lEnd, rKey, rEnd } out) pushed
  | ⟨k, .value v⟩ :: es, out, pushed =>
    if belowLeft args k.slice k.length then entriesEnd b es out pushed
    else if withinRight args (keyAt π k) then
      if args.maxSize ≠ 0 ∧ args.maxSize ≤ (out.push args (s.versionOf b) b (keyAt π k) v (s.lenOf v)).tuples.length then
        .scanEnd (out.push args (s.versionOf b) b (keyAt π k) v (s.lenOf v))
      else entriesEnd b es (out.push args (s.versionOf b) b (keyAt π k) v (s.lenOf v)) true
    else .scanEnd (out.close args (s.versionOf b) b pushed)

/-- The loop over the borders of a layer. -/
def bordersOut : List (NodeId × List Entry) → ScanOut → ScanOut
  | [], out => out
  | (b, es) :: bs, out => match entriesEnd s next π args b es out false with
    | .finished out pushed => bordersOut bs (out.close args (s.versionOf b) b pushed)
    | .scanEnd out => out
    | _ => out

/-- The code that a scan starts from: the size of the key is narrowed to one byte. -/
def ScanArgs.startCode (args : ScanArgs) : Nat := (KeyTuple.norm (.ofKey args.lKey) (args.lKey.length % 256)).code

/-- The scan of the layer at a path, with a bound on the layers below. -/
def layerOut : Nat → Path → ScanArgs → ScanOut → ScanOut
  | 0, _, _, out => out
  | n + 1, π, args, out => match A π with
    | none => out
    | some t => bordersOut s (fun sl args out => layerOut n (sl :: π) args out) π args (t.fromCode args.startCode) out

end
/-! ### The program computes the function -/

section
variable {s : State} {ti : TreeId} {A : Forest} {dead : NodeId → Prop} {π : Path} {b : NodeId} {bd : Node}
  {next : KeySlice → ScanArgs → ScanOut → ScanOut} {args : ScanArgs}

theorem State.versionOf_eq (hb : s.node b = some bd) : s.versionOf b = bd.version := by simp [versionOf, hb]

theorem appendSlice_eq (π : Path) (k : KeyTuple) : appendSlice (pathBytes π) k.slice k.length = keyAt π k := by
  rw [appendSlice, keyAt]
  split
  · rfl
  · rename_i h
    rw [List.take_of_length_le (by rw [k.slice.size]; exact Nat.le_refl 8),
      List.take_of_length_le (by rw [k.slice.size]; exact Nat.not_lt.mp h)]

theorem run_scanCheckRetry {α : Type} {fuel : Nat} {retry : M Unit} (hb : s.node b = some bd)
    (hst : bd.version.stable = true) (hf : 0 < fuel) (k : Status × Version → M α) :
    run (scanCheckRetry fuel retry b bd.version >>= k) s = run (k (.ok, bd.version)) s := by
  rw [scanCheckRetry, Lib.Prog.bind_assoc, run_getStableVersion_bind hb hst hf]
  simp

/-- What the loop over the entries of a border asks of them. -/
structure ScanReady (s : State) (A : Forest) (π : Path) (next : KeySlice → ScanArgs → ScanOut → ScanOut)
    (e : Entry) : Prop where
  layer_iff : e.content = .layer ↔ sliceSize < e.key.length
  block : ∀ w, e.content = .value (.heap w) → ∃ x, s.block w = some x
  below : e.content = .layer → ∀ args, ∃ N, ∀ retry, ∀ fuel ≥ N, ∀ k ≥ N, ∀ out,
    run (scanLayer fuel retry k (A.link π e.key.slice) args out (keyAt π e.key)) s =
      some ((.ok, next e.key.slice args out), s)

/-- One entry: the loads and the check of the version come before its tests. -/
theorem run_scanEntries_cons {i : Nat} {l : List Nat} {e : Entry} {fuel : Nat} {retry : M Unit} {scanNext : LayerScan}
    {out : ScanOut} {pushed : Bool} (hb : s.node b = some bd) (hk : bd.kind = .border) (hst : bd.version.stable = true)
    (hi : i < 15) (hkey : bd.key i = e.key) (hf : 0 < fuel) :
    run (scanEntries fuel retry scanNext args b bd.version (pathBytes π) (i :: l) out pushed) s =
    run (if sliceSize < e.key.length then
        match leftArg args e.key.slice with
        | none => scanEntries fuel retry scanNext args b bd.version (pathBytes π) l out pushed
        | some (lKey, lEnd) => match rightArg args (keyAt π e.key) with
          | none => pure (.scanEnd out)
          | some (rKey, rEnd) => do
            let (st, out) ← scanNext (bd.lv i).getNextLayer { args with lKey, lEnd, rKey, rEnd } out (keyAt π e.key)
            if st ≠ .ok then do
              retry
              pure (.retry bd.version)
            else scanEntries fuel retry scanNext args b bd.version (pathBytes π) l out pushed
      else if belowLeft args e.key.slice e.key.length then scanEntries fuel retry scanNext args b bd.version
        (pathBytes π) l out pushed
      else if withinRight args (keyAt π e.key) then do
        let (st, out) ← inRange args b bd.version (keyAt π e.key) (bd.lv i).getValue out
        if st ≠ .ok then pure (.scanEnd out)
        else scanEntries fuel retry scanNext args b bd.version (pathBytes π) l out true
      else pure (.scanEnd (if pushed then out else out.record args bd.version b))) s := by
  have hslice : bd.keySlice i = e.key.slice := congrArg KeyTuple.slice hkey
  have hlen : bd.keyLength i = e.key.length := congrArg KeyTuple.length hkey
  rw [scanEntries, run_load_keySlice hb hi, run_load_keyLength hb hi, run_load_lv hb hk hi, run_load_lv hb hk hi,
    run_scanCheckRetry hb hst hf, ← appendSlice_eq, ← hslice, ← hlen]
  rfl

theorem run_scanEntries (hb : s.node b = some bd) (hk : bd.kind = .border) (hst : bd.version.stable = true) :
    ∀ {l : List Nat} {es : List Entry},
    (∀ i ∈ l, i < 15) → l.map bd.slot = es.map (Entry.slot (A.link π)) → (∀ e ∈ es, ScanReady s A π next e) →
    ∃ N, ∀ retry, ∀ fuel ≥ N, ∀ k ≥ N, ∀ out pushed,
      run (scanEntries fuel retry (scanLayer fuel retry k) args b bd.version (pathBytes π) l out
      pushed) s = some (entriesEnd s next π args b es out pushed, s) := by
  intro l
  induction l with
  | nil =>
    intro es _ hl _
    obtain rfl : es = [] := List.map_eq_nil_iff.mp hl.symm
    exact ⟨0, fun retry fuel _ k _ out pushed => rfl⟩
  | cons i l ih =>
    intro es hi hl hes
    cases es with
    | nil => simp at hl
    | cons e es =>
      rw [List.map_cons, List.map_cons, List.cons.injEq] at hl
      obtain ⟨hslot, hl⟩ := hl
      obtain ⟨N, hN⟩ := ih (fun j hj => hi j (List.mem_cons_of_mem _ hj)) hl fun e he => hes e (List.mem_cons_of_mem _ he)
      have hi15 := hi i List.mem_cons_self
      have hready := hes e List.mem_cons_self
      have hkey : bd.key i = e.key := congrArg Prod.fst hslot
      have hlv : bd.lv i = (e.slot (A.link π)).2 := congrArg Prod.snd hslot
      obtain ⟨k, c⟩ := e
      cases c with
      | layer =>
        have hgt := hready.layer_iff.mp rfl
        have hnext : (bd.lv i).getNextLayer = A.link π k.slice := by
          rw [hlv, Entry.slot]
          cases A.link π k.slice <;> rfl
        cases hleft : leftArg args k.slice with
        | none =>
          refine ⟨N + 1, fun retry fuel hf j hj out pushed => ?_⟩
          rw [run_scanEntries_cons hb hk hst hi15 hkey (by omega), if_pos hgt]
          simp only [entriesEnd, hleft]
          exact hN retry fuel (by omega) j (by omega) out pushed
        | some lArg =>
          obtain ⟨lKey, lEnd⟩ := lArg
          cases hright : rightArg args (keyAt π k) with
          | none =>
            refine ⟨N + 1, fun retry fuel hf j hj out pushed => ?_⟩
            rw [run_scanEntries_cons hb hk hst hi15 hkey (by omega), if_pos hgt]
            simp only [entriesEnd, hleft, hright]
            rfl
          | some rArg =>
            obtain ⟨rKey, rEnd⟩ := rArg
            obtain ⟨N', hN'⟩ := hready.below rfl { args with lKey, lEnd, rKey, rEnd }
            refine ⟨N + N' + 1, fun retry fuel hf j hj out pushed => ?_⟩
            rw [run_scanEntries_cons hb hk hst hi15 hkey (by omega), if_pos hgt]
            simp only [entriesEnd, hleft, hright, hnext]
            rw [run_bind_of (hN' retry fuel (by omega) j (by omega) out)]
            simp only [ne_eq, not_true_eq_false, if_false]
            exact hN retry fuel (by omega) j (by omega) _ pushed
      | value v =>
        have hle : ¬ sliceSize < k.length := fun h => by simpa using hready.layer_iff.mpr h
        have hval : bd.lv i = .value v := hlv
        refine ⟨N + 1, fun retry fuel hf j hj out pushed => ?_⟩
        rw [run_scanEntries_cons hb hk hst hi15 hkey (by omega), if_neg hle, hval, LinkOrValue.getValue_value]
        simp only [entriesEnd, State.versionOf_eq hb]
        by_cases hbl : belowLeft args k.slice k.length = true
        · rw [if_pos hbl, if_pos hbl]
          exact hN retry fuel (by omega) j (by omega) out pushed
        · rw [if_neg hbl, if_neg hbl]
          by_cases hwr : withinRight args (keyAt π k) = true
          · rw [if_pos hwr, if_pos hwr, inRange]
            simp only [Lib.Prog.bind_assoc]
            rw [run_getLen fun w hw => hready.block w (by rw [hw])]
            by_cases hmax : args.maxSize ≠ 0 ∧
              args.maxSize ≤ (out.push args bd.version b (keyAt π k) v (s.lenOf v)).tuples.length
            · rw [if_pos hmax]
              have hmax' := hmax
              simp only [ScanOut.push] at hmax'
              rw [if_pos hmax']
              rfl
            · rw [if_neg hmax]
              have hmax' := hmax
              simp only [ScanOut.push] at hmax'
              rw [if_neg hmax']
              simp only [Lib.Prog.pure_eq, Lib.Prog.ret_bind, ne_eq, not_true_eq_false, if_false]
              exact hN retry fuel (by omega) j (by omega) _ true
          · rw [if_neg hwr, if_neg hwr]
            rfl

/-- The loop ends in one of two ways on a tree at rest. -/
theorem entriesEnd_cases (s : State) (next : KeySlice → ScanArgs → ScanOut → ScanOut) (π : Path) (args : ScanArgs)
    (b : NodeId) (es : List Entry) (out : ScanOut) (pushed : Bool) :
    (∃ out' p, entriesEnd s next π args b es out pushed = .finished out' p) ∨
      ∃ out', entriesEnd s next π args b es out pushed = .scanEnd out' := by
  fun_induction entriesEnd s next π args b es out pushed with
  | case1 out pushed => exact Or.inl ⟨out, pushed, rfl⟩
  | case2 _ _ _ _ _ ih => exact ih
  | case3 => exact Or.inr ⟨_, rfl⟩
  | case4 _ _ _ _ _ _ _ _ _ _ ih => exact ih
  | case5 _ _ _ _ _ _ ih => exact ih
  | case6 => exact Or.inr ⟨_, rfl⟩
  | case7 _ _ _ _ _ _ _ _ ih => exact ih
  | case8 => exact Or.inr ⟨_, rfl⟩

/-- The scan of one border: it ends the scan of the layer, or goes on with the next border. -/
theorem run_scanBorder {par : Ptr} {rt : Bool} {es : List Entry} (hb : s.node b = some bd)
    (hok : NodeOk (A.link π) dead bd ⟨par, rt, .border es⟩) (hes : ∀ e ∈ es, ScanReady s A π next e)
    (hnx : ∀ x, bd.next = some x → ∃ xd, s.node x = some xd ∧ xd.version.stable = true) :
    ∃ N, ∀ retry, ∀ fuel ≥ N, ∀ k ≥ N, ∀ out j,
      (∀ out', entriesEnd s next π args b es out false = .scanEnd out' →
        run (scanBorder fuel retry (scanLayer fuel retry k) args b (pathBytes π) out (j + 1) bd.version) s =
          some ((.okScanEnd, b, bd.version, out'), s)) ∧
      (∀ out' p, entriesEnd s next π args b es out false = .finished out' p →
        (bd.next = none →
          run (scanBorder fuel retry (scanLayer fuel retry k) args b (pathBytes π) out (j + 1) bd.version) s =
          some ((.okScanEnd, b, bd.version, out'.close args bd.version b p), s)) ∧
        ∀ x, bd.next = some x →
          run (scanBorder fuel retry (scanLayer fuel retry k) args b (pathBytes π) out (j + 1) bd.version) s =
          some ((.okScanContinue, x, s.versionOf x, out'.close args bd.version b p), s)) := by
  obtain ⟨hk, -, -, -, hbound, hslots, -⟩ := hok.members
  obtain ⟨N, hN⟩ := run_scanEntries hb hk hok.stable hbound hslots hes
  refine ⟨N + 1, fun retry fuel hf k hk' out j => ?_⟩
  have hrun := hN retry fuel (by omega) k (by omega) out false
  refine ⟨fun out' he => ?_, fun out' p he => ⟨fun hnone => ?_, fun x hx => ?_⟩⟩
  · rw [scanBorder, run_load_next hb hk, run_load_permutation hb hk, run_bind_of hrun, he]
    rfl
  · rw [scanBorder, run_load_next hb hk, run_load_permutation hb hk, run_bind_of hrun, he, hnone]
    simp only [Lib.Prog.pure_eq, Lib.Prog.ret_bind]
    rw [run_scanCheckRetry hb hok.stable (by omega)]
    rfl
  · obtain ⟨xd, hxn, hxs⟩ := hnx x hx
    rw [scanBorder, run_load_next hb hk, run_load_permutation hb hk, run_bind_of hrun, he, hx]
    simp only
    rw [run_getStableVersion_bind hxn hxs (by omega), run_scanCheckRetry hb hok.stable (by omega), State.versionOf_eq hxn]
    rfl

/-- What the loop over borders asks of them. -/
def BordersReady (s : State) (A : Forest) (dead : NodeId → Prop) (π : Path) (next : KeySlice → ScanArgs → ScanOut → ScanOut)
    (bs : List (NodeId × List Entry)) : Prop :=
  ∀ x ∈ bs, (∃ bd par rt, s.node x.1 = some bd ∧ NodeOk (A.link π) dead bd ⟨par, rt, .border x.2⟩) ∧
    ∀ e ∈ x.2, ScanReady s A π next e

/-- A loop over the borders of a layer that goes on and ends as `scan_border` says. -/
theorem run_borderLoop (P : Nat → Nat → Prop)
    (loop : Nat → M Unit → Nat → Nat → NodeId → Version → ScanOut → M (Option (Status × ScanOut))) {p : Ptr} :
    ∀ {bs : List (NodeId × List Entry)} {es : List Entry}, BordersReady s A dead π next ((b, es) :: bs) →
      Chain s p (((b, es) :: bs).map (·.1)) none →
    (∀ x ∈ (b, es) :: bs, ∀ retry fuel k j out out', P fuel k →
      run (scanBorder fuel retry (scanLayer fuel retry k) args x.1 (pathBytes π) out fuel
        (s.versionOf x.1)) s = some ((.okScanEnd, x.1, s.versionOf x.1, out'), s) →
      run (loop fuel retry k (j + 1) x.1 (s.versionOf x.1) out) s = some (some (.ok, out'), s)) →
    (∀ x ∈ (b, es) :: bs, ∀ retry fuel k j out out' y, P fuel k →
      run (scanBorder fuel retry (scanLayer fuel retry k) args x.1 (pathBytes π) out fuel
        (s.versionOf x.1)) s = some ((.okScanContinue, y, s.versionOf y, out'), s) →
      run (loop fuel retry k (j + 1) x.1 (s.versionOf x.1) out) s = run (loop fuel retry k j y (s.versionOf y) out') s) →
    ∃ N, ∀ retry, ∀ fuel ≥ N, ∀ k ≥ N, P fuel k → ∀ j ≥ N, ∀ out,
      run (loop fuel retry k j b (s.versionOf b) out) s =
        some (some (.ok, bordersOut s next π args ((b, es) :: bs) out), s) := by
  intro bs
  induction bs generalizing b p with
  | nil =>
    intro es hready hchain hend _
    obtain ⟨⟨bd, par, rt, hb, hok⟩, hes⟩ := hready (b, es) List.mem_cons_self
    obtain ⟨⟨bd', hb', -, hnext⟩, -⟩ := hchain
    obtain rfl : bd = bd' := Option.some.inj (hb.symm.trans hb')
    have hnone : bd.next = none := hnext
    obtain ⟨N, hN⟩ := run_scanBorder hb hok hes fun x hx => absurd (hnone.symm.trans hx) (by simp)
    refine ⟨N + 1, fun retry fuel hf k hk hP j hj out => ?_⟩
    obtain ⟨j, rfl⟩ : ∃ j', j = j' + 1 := ⟨j - 1, by omega⟩
    obtain ⟨fuel, rfl⟩ : ∃ f, fuel = f + 1 := ⟨fuel - 1, by omega⟩
    obtain ⟨h1, h2⟩ := hN retry (fuel + 1) (by omega) k (by omega) out fuel
    rw [← State.versionOf_eq hb] at h1 h2
    rcases entriesEnd_cases s next π args b es out false with ⟨out', q, he⟩ | ⟨out', he⟩
    · rw [hend _ List.mem_cons_self retry _ k j out _ hP ((h2 out' q he).1 hnone)]
      simp only [bordersOut, he]
    · rw [hend _ List.mem_cons_self retry _ k j out _ hP (h1 out' he)]
      simp only [bordersOut, he]
  | cons y bs ih =>
    intro es hready hchain hend hcont
    obtain ⟨c, fs⟩ := y
    obtain ⟨⟨bd, par, rt, hb, hok⟩, hes⟩ := hready (b, es) List.mem_cons_self
    obtain ⟨⟨cd, par', rt', hc, hcok⟩, -⟩ := hready (c, fs) (List.mem_cons_of_mem _ List.mem_cons_self)
    obtain ⟨⟨bd', hb', -, hnext⟩, hchain'⟩ := hchain
    obtain rfl : bd = bd' := Option.some.inj (hb.symm.trans hb')
    have hsome : bd.next = some c := hnext
    obtain ⟨N, hN⟩ := run_scanBorder hb hok hes fun x hx => by
      obtain rfl : c = x := Option.some.inj (hsome.symm.trans hx)
      exact ⟨cd, hc, hcok.stable⟩
    obtain ⟨N', hN'⟩ := ih (fun x hx => hready x (List.mem_cons_of_mem _ hx)) hchain'
      (fun x hx => hend x (List.mem_cons_of_mem _ hx))
      fun x hx => hcont x (List.mem_cons_of_mem _ hx)
    refine ⟨N + N' + 1, fun retry fuel hf k hk hP j hj out => ?_⟩
    obtain ⟨j, rfl⟩ : ∃ j', j = j' + 1 := ⟨j - 1, by omega⟩
    obtain ⟨fuel, rfl⟩ : ∃ f, fuel = f + 1 := ⟨fuel - 1, by omega⟩
    obtain ⟨h1, h2⟩ := hN retry (fuel + 1) (by omega) k (by omega) out fuel
    rw [← State.versionOf_eq hb] at h1 h2
    rcases entriesEnd_cases s next π args b es out false with ⟨out', q, he⟩ | ⟨out', he⟩
    · rw [hcont _ List.mem_cons_self retry _ k j out _ c hP ((h2 out' q he).2 c hsome),
        hN' retry (fuel + 1) (by omega) k (by omega) hP j (by omega)]
      simp only [bordersOut, he]
    · rw [hend _ List.mem_cons_self retry _ k j out _ hP (h1 out' he)]
      simp only [bordersOut, he]

/-! ### The scan of a layer -/

theorem keyAt_layer {k : KeyTuple} (h : k.length = 9) : keyAt π k = pathBytes (k.slice :: π) := by
  rw [keyAt, pathBytes, h, List.take_of_length_le (by rw [k.slice.size]; omega)]

/-- The scan of the layers below is what the loop over the borders of a layer asks for. -/
theorem Holds.bordersReady (H : Holds s ti A dead) {t : BTree} (ht : A π = some t)
    (hbelow : ∀ sl u, A (sl :: π) = some u → ∀ args, ∃ N, ∀ retry, ∀ fuel ≥ N, ∀ k ≥ N, ∀ out,
      run (scanLayer fuel retry k (some u.id) args out (pathBytes (sl :: π))) s = some ((.ok, next sl args out), s)) :
    BordersReady s A dead π next t.borders := by
  rintro ⟨b, es⟩ hb
  refine ⟨?_, fun e he => ⟨?_, fun w hw => ?_, fun hc args => ?_⟩⟩
  · obtain ⟨par, rt, hd⟩ := BTree.border_desc hb (A.parent π) true
    obtain ⟨bd, hbn, hok⟩ := (H.layers ht).nodes _ hd
    exact ⟨bd, par, rt, hbn, hok⟩
  · obtain ⟨henc, hlayer⟩ := (H.layers ht).entry_ok (BTree.mem_entries.mpr ⟨b, es, hb, he⟩)
    have := henc.length_le
    rw [hlayer, sliceSize]
    omega
  · obtain ⟨-, x, hx⟩ := H.blocks ⟨t, ht, BTree.mem_entries.mpr ⟨b, es, hb, he⟩⟩ hw
    exact ⟨x, hx⟩
  · obtain ⟨u, hu, -⟩ := H.behind ht hb he hc
    have h9 := ((H.layers ht).entry_ok (BTree.mem_entries.mpr ⟨b, es, hb, he⟩)).2.mp hc
    have hlink : A.link π e.key.slice = some u.id := by
      rw [Forest.link, hu]
      rfl
    rw [hlink, keyAt_layer h9]
    exact hbelow _ u hu args

/-- A loop over the borders that follow the one found for a code. -/
theorem Chain.from {c : Ctx} {es : List Entry} (h : Chain s none ((Ctx.plug c (.border b es)).borders.map (·.1)) none) :
    ∃ p, Chain s p (((b, es) :: Ctx.bordersRight c).map (·.1)) none := by
  rw [Ctx.plug_borders, List.append_assoc, List.map_append] at h
  exact ⟨_, (chain_append.mp h).2⟩

theorem fromCode_sublist {c : Ctx} {es : List Entry} {x : NodeId × List Entry} (hx : x ∈ (b, es) :: Ctx.bordersRight c) :
    x ∈ (Ctx.plug c (.border b es)).borders := by
  rw [Ctx.plug_borders, List.append_assoc]
  exact List.mem_append_right _ hx

/-- The root of a layer below the first one is in use. -/
theorem Holds.root_used (H : Holds s ti A dead) {sl : KeySlice} {t : BTree} (ht : A (sl :: π) = some t) :
    ∃ nd, s.node t.id = some nd ∧ nd.version.root = true ∧ nd.version.deleted = false := by
  obtain ⟨nd, hn, hok⟩ := LayerOk.node_at (c := []) (H.layers ht)
  refine ⟨nd, hn, hok.root, ?_⟩
  cases t with
  | interior i f r => exact hok.members.2.2.1
  | border i es =>
    refine hok.members.2.2.1 fun hnil => H.ok.nonempty ht ?_
    simp [BTree.entries, BTree.borders, hnil]

theorem run_scanLayer (H : Holds s ti A dead) {D : Nat} (hD : ∀ π t, A π = some t → π.length ≤ D) :
    ∀ (n : Nat) {sl : KeySlice} {π : Path} {t : BTree},
    A (sl :: π) = some t → D < (sl :: π).length + n → ∀ args, ∃ N, ∀ retry, ∀ fuel ≥ N, ∀ k ≥ N, ∀ out,
      run (scanLayer fuel retry k (some t.id) args out (pathBytes (sl :: π))) s =
        some ((.ok, layerOut s A n (sl :: π) args out), s) := by
  intro n
  induction n with
  | zero =>
    intro sl π t ht hlt
    exact absurd (hD _ _ ht) (by omega)
  | succ n ih =>
    intro sl π t ht hlt args
    have hready := H.bordersReady ht fun sl' u hu args' =>
      ih hu (by simp only [List.length_cons] at hlt ⊢; omega) args'
    obtain ⟨nd, hn, hroot, hdel⟩ := H.root_used ht
    obtain ⟨c, b, es, bd, rfl, hbt, hb, Nf, hfind⟩ := run_findBorder (H.layers ht) (.ofKey args.lKey)
      (args.lKey.length % 256)
    obtain ⟨p, hchain⟩ := (H.layers ht).chain.from
    obtain ⟨Nl, hloop⟩ := run_borderLoop (fun _ _ => True)
      (fun fuel retry k j b v out => scanLayerLoop fuel retry (scanLayer fuel retry k) args (pathBytes (sl :: π)) j b v out)
      (fun x hx => hready x (fromCode_sublist hx)) hchain
      (fun x _ retry fuel k j out out' _ hrun => by
        rw [scanLayerLoop, run_bind_of hrun]
        rfl)
      (fun x _ retry fuel k j out out' y _ hrun => by
        rw [scanLayerLoop, run_bind_of hrun])
    refine ⟨Nf + Nl + 1, fun retry fuel hf k hk out => ?_⟩
    obtain ⟨k, rfl⟩ : ∃ k', k = k' + 1 := ⟨k - 1, by omega⟩
    obtain ⟨fuel, rfl⟩ : ∃ f, fuel = f + 1 := ⟨fuel - 1, by omega⟩
    change run (scanLayerRetry (fuel + 1) retry (scanLayer (fuel + 1) retry k) _ args out _ (fuel + 1)) s = _
    rw [scanLayerRetry]
    simp only [deref, Lib.Prog.ret_bind]
    rw [run_getBody_bind hn, run_getBody_bind hn, if_neg (by simp [hroot, hdel]),
      run_bind_of (hfind retry (fuel + 1) (by omega))]
    simp only [reduceCtorEq, if_false, Lib.Prog.ret_bind, ← State.versionOf_eq hb]
    rw [run_bind_of (hloop retry (fuel + 1) (by omega) k (by omega) trivial (fuel + 1) (by omega) out)]
    simp only [layerOut, ht]
    rw [ScanArgs.startCode, fromCode_eq hbt]
    rfl

/-- `scan` on a tree that has a root. -/
theorem run_scan (H : Holds s ti A dead) (hA : A [] ≠ none) {D : Nat} (hD : ∀ π t, A π = some t → π.length ≤ D)
    (args : ScanArgs) (hargs : ¬ args.Rejected) (out : ScanOut) : ∃ N, ∀ retry, ∀ fuel ≥ N,
      run (scan fuel retry ti args out) s = some ((.ok, layerOut s A (D + 1) [] args ⟨[], []⟩), s) := by
  obtain ⟨t, ht⟩ := Option.ne_none_iff_exists'.mp hA
  have hroot : s.root ti = some t.id := by
    rw [H.root, ht]
    rfl
  have hready := H.bordersReady ht fun sl' u hu args' =>
    run_scanLayer H hD D hu (by simp) args'
  obtain ⟨c, b, es, bd, rfl, hbt, hb, Nf, hfind⟩ := run_findBorder (H.layers ht) (.ofKey args.lKey) (args.lKey.length % 256)
  have hout : layerOut s A (D + 1) [] args ⟨[], []⟩ =
    bordersOut s (fun sl' args out => layerOut s A D (sl' :: []) args out) [] args
      ((b, es) :: Ctx.bordersRight c) ⟨[], []⟩ := by
    simp only [layerOut, ht]
    rw [ScanArgs.startCode, fromCode_eq hbt]
  have hscan : ∀ {N : Nat}, (∀ retry, ∀ fuel ≥ N, run (scanLoop fuel retry args fuel b bd.version ⟨[], []⟩) s =
      some (some (.ok, layerOut s A (D + 1) [] args ⟨[], []⟩), s)) → ∃ N, ∀ retry, ∀ fuel ≥ N,
      run (scan fuel retry ti args out) s = some ((.ok, layerOut s A (D + 1) [] args ⟨[], []⟩), s) := by
    intro N hN
    refine ⟨N + Nf + 1, fun retry fuel hf => ?_⟩
    obtain ⟨fuel, rfl⟩ : ∃ f, fuel = f + 1 := ⟨fuel - 1, by omega⟩
    rw [scan, if_neg (by exact hargs), scanRetry, run_loadRoot, hroot, if_neg (by simp),
      run_bind_of (hfind retry (fuel + 1) (by omega))]
    simp only [reduceCtorEq, if_false, deref, Lib.Prog.ret_bind]
    rw [run_bind_of (hN retry (fuel + 1) (by omega))]
    rfl
  by_cases hdel : bd.version.deleted = true
  · -- Only the empty root of the whole tree is deleted.
    have hok := (H.layers ht).node_eq (u := .border b es) hb
    have hes : es = [] := by
      by_contra hne
      have hused : bd.version.deleted = false := hok.members.2.2.1 hne
      simp [hdel] at hused
    subst hes
    obtain rfl := (H.layers ht).ctx_eq_nil
    refine hscan (N := 1) fun retry fuel hf => ?_
    obtain ⟨fuel, rfl⟩ : ∃ f, fuel = f + 1 := ⟨fuel - 1, by omega⟩
    have hr : bd.version.root = true := hok.root
    rw [scanLoop, if_pos ⟨hdel, hr⟩, hout]
    simp only [Ctx.bordersRight, bordersOut, entriesEnd, State.versionOf_eq hb, ScanOut.close, Bool.false_eq_true, if_false]
    rfl
  · obtain ⟨p, hchain⟩ := (H.layers ht).chain.from
    have hused : ∀ x ∈ (b, es) :: Ctx.bordersRight c,
      ¬ ((s.versionOf x.1).deleted = true ∧ (s.versionOf x.1).root = true) := by
      rintro ⟨y, fs⟩ hx ⟨hdy, -⟩
      obtain ⟨⟨yd, par, rt, hy, hyok⟩, -⟩ := hready _ (fromCode_sublist hx)
      rw [State.versionOf_eq hy] at hdy
      have hfs : fs = [] := by
        by_contra hne
        have hused : yd.version.deleted = false := hyok.members.2.2.1 hne
        simp [hdy] at hused
      have htree := (H.layers ht).nonempty _ (fromCode_sublist hx) hfs
      have hc : c = [] := by
        cases c with
        | nil => rfl
        | cons f c => exact absurd htree (Ctx.plug_cons_ne_border f c _ y [])
      subst hc
      simp only [Ctx.plug, BTree.border.injEq] at htree
      obtain ⟨rfl, -⟩ := htree
      exact hdel (by rwa [Option.some.inj (hy.symm.trans hb)] at hdy)
    obtain ⟨Nl, hloop⟩ := run_borderLoop (fun fuel k => k = fuel)
      (fun fuel retry _ j b v out => scanLoop fuel retry args j b v out)
      (fun x hx => hready x (fromCode_sublist hx)) hchain
      (fun x hx retry fuel k j out out' hk hrun => by
        subst hk
        have hrun' : run (scanBorder k retry (scanLayer k retry k) args x.1 [] out k (s.versionOf x.1)) s = _ := hrun
        rw [scanLoop, if_neg (hused x hx), run_bind_of hrun']
        rfl)
      (fun x hx retry fuel k j out out' y hk hrun => by
        subst hk
        have hrun' : run (scanBorder k retry (scanLayer k retry k) args x.1 [] out k (s.versionOf x.1)) s = _ := hrun
        rw [scanLoop, if_neg (hused x hx), run_bind_of hrun'])
    refine hscan (N := Nl) fun retry fuel hf => ?_
    rw [hout, ← State.versionOf_eq hb]
    exact hloop retry fuel hf fuel hf rfl fuel hf ⟨[], []⟩

end

end Yakushima
