/-
  The search of a name in a valid index.

  The binary searches find the last entry whose hash is not above the one sought
  (`getLeaf_run`), and each further call moves to the next entry as long as that
  continues the hash (`nextBlock_run`); so the leaves visited are exactly those
  that may hold the hash (`visits_eq`), and a name that is not found is in no
  leaf.

  Main result.
  * `dxLookup_correct`: the leaves visited, and what the search returns.
-/
import Lwext4.DirIdxTree

namespace Lwext4.DirIdx

open Lib

/-- No call fails. -/
def DxEnv.Quiet (env : DxEnv) : Prop := ∀ n, env.fault n = none

/-- One more call was made. -/
def DxSt.tick (st : DxSt) : DxSt := { st with ops := st.ops + 1 }

section
variable {env : DxEnv} {st st' : DxSt} {base : ℕ → ℕ} {held : List ℕ} {m : Mem} {en hash : ℕ}
  {es : List DxEntry}

theorem SameBlocks.incRef (st : DxSt) (n : ℕ) : SameBlocks st (st.incRef n) := ⟨rfl, rfl⟩

theorem SameBlocks.decRef (st : DxSt) (n : ℕ) : SameBlocks st (st.decRef n) := ⟨rfl, rfl⟩

theorem Holds.tick (h : Holds base held st) : Holds base held st.tick := h

theorem nextFault_run (hq : env.Quiet) : nextFault env st = (.ok none, st.tick) := by
  rw [nextFault, hq]
  rfl

theorem getInodeDblkIdx_run (hq : env.Quiet) (i : ℕ) :
    getInodeDblkIdx env i st = (.ok (.ok (st.fblock i)), st.tick) := by
  rw [getInodeDblkIdx, Prog.bind_ok (nextFault_run hq)]
  rfl

theorem transBlockGet_run (hq : env.Quiet) (b : ExtBlock) (n : ℕ) :
    transBlockGet env b n st = (.ok (none, .on n), st.tick.incRef n) := by
  rw [transBlockGet, Prog.bind_ok (nextFault_run hq)]
  rfl

theorem dxData_run (b : ExtBlock) : dxData b st = (.ok (st.blockData b), st) := rfl

/-! ## The binary search -/

theorem HashSorted.getElem_le (h : HashSorted es) {i j : ℕ} (hij : i ≤ j) (hj : j < es.length) :
    es[i].hash ≤ es[j].hash := by
  rcases Nat.lt_or_eq_of_le hij with hlt | rfl
  · exact List.pairwise_iff_getElem.1 h i j (by omega) hj hlt
  · exact le_rfl

/-- **The binary search** finds the last entry whose hash is not above the one
    sought. -/
theorem place_spec (hes : HoldsEntries m en es) (hs : HashSorted es) {limit : ℕ}
    (hlimit : es.length ≤ limit) (hash : ℕ) :
    ∃ es₁ e es₂, es = es₁ ++ e :: es₂ ∧ dxPlace m en limit hash = some es₁.length ∧
      (es₁ = [] ∨ e.hash ≤ hash) ∧ ∀ a ∈ es₂, hash < a.hash := by
  have hpos := hes.length_pos
  have hord : OrderedOn (dxEntryGetHash m en) 1 (es.length - 1) := by
    intro i j hi hij hj
    rw [hes.hash i (by omega) hi, hes.hash j (by omega) (by omega)]
    exact hs.getElem_le hij (by omega)
  obtain ⟨hr1, hr2⟩ := @upperBound_range _ _ (dxEntryGetHash m en) hash es.length 1 (es.length - 1)
    Nat.one_pos (by omega)
  obtain ⟨hlow, hhigh⟩ := @upperBound_spec _ _ (dxEntryGetHash m en) hash es.length 1
    (es.length - 1) Nat.one_pos (by omega) (by omega) hord
  have hplace : dxPlace m en limit hash =
      some (upperBound (dxEntryGetHash m en) hash es.length 1 (es.length - 1) - 1) := by
    rw [dxPlace, hes.count]
    exact if_neg (by omega)
  generalize upperBound (dxEntryGetHash m en) hash es.length 1 (es.length - 1) = r at *
  have hlt : r - 1 < es.length := by omega
  refine ⟨es.take (r - 1), es[r - 1], es.drop r, ?_, ?_, ?_, ?_⟩
  · have h := List.take_append_drop (r - 1) es
    rw [List.drop_eq_getElem_cons hlt, Nat.sub_add_cancel hr1] at h
    exact h.symm
  · rw [hplace, List.length_take, Nat.min_eq_left (by omega)]
  · rcases Nat.eq_or_lt_of_le hr1 with h1 | h1
    · left
      rw [← h1]
      rfl
    · right
      rw [← hes.hash (r - 1) hlt (by omega)]
      exact hlow (r - 1) (by omega) (by omega)
  · intro a ha
    obtain ⟨i, hi, rfl⟩ := List.getElem_of_mem ha
    rw [List.length_drop] at hi
    rw [List.getElem_drop, ← hes.hash (r + i) (by omega) (by omega)]
    exact hhigh (r + i) (by omega) (by omega)

/-! ## The first leaf -/

/-- What the search in the root leaves behind lies above the hash in the nodes
    too. -/
theorem node_above {nodes : List (DxEntry × List DxEntry)}
    (hs : HashSorted (nodes.flatMap Prod.snd))
    (hfirst : ∀ t ∈ nodes, t.2.head?.map DxEntry.hash = some t.1.hash)
    (h : ∀ t ∈ nodes, hash < t.1.hash) : ∀ a ∈ nodes.flatMap Prod.snd, hash < a.hash := by
  intro a ha
  obtain ⟨t, ht, hat⟩ := List.mem_flatMap.1 ha
  have hts : HashSorted t.2 := List.Pairwise.sublist (List.sublist_flatten_of_mem
    (List.mem_map_of_mem ht)) (by rwa [← List.flatMap_def])
  have hf := hfirst t ht
  have hgt := h t ht
  cases hnode : t.2 with
  | nil =>
    rw [hnode] at hat
    exact absurd hat List.not_mem_nil
  | cons e es =>
    rw [hnode] at hf hat hts
    have heq : e.hash = t.1.hash := Option.some.inj hf
    rcases List.mem_cons.1 hat with rfl | hat
    · omega
    · have := (List.pairwise_cons.1 hts).1 a hat
      omega

theorem tops_sorted {nodes : List (DxEntry × List DxEntry)}
    (hs : HashSorted (nodes.flatMap Prod.snd))
    (hfirst : ∀ t ∈ nodes, t.2.head?.map DxEntry.hash = some t.1.hash) :
    HashSorted (nodes.map Prod.fst) := by
  induction nodes with
  | nil => exact List.Pairwise.nil
  | cons t nodes ih =>
    rw [List.flatMap_cons] at hs
    obtain ⟨-, hrest, hcross⟩ := List.pairwise_append.1 hs
    refine List.pairwise_cons.2 ⟨fun top htop => ?_, ih hrest fun t' ht' => hfirst t' (.tail _ ht')⟩
    obtain ⟨t', ht', rfl⟩ := List.mem_map.1 htop
    have h := hfirst t (.head _)
    have h' := hfirst t' (.tail _ ht')
    obtain ⟨e, he, heq⟩ := Option.map_eq_some_iff.1 h
    obtain ⟨e', he', heq'⟩ := Option.map_eq_some_iff.1 h'
    rw [← heq, ← heq']
    exact hcross e (List.mem_of_mem_head? he) e'
      (List.mem_flatMap.2 ⟨t', ht', List.mem_of_mem_head? he'⟩)

theorem checkNode_run {next : Dx GotLeaf} {b : ExtBlock}
    (h : dxGetLimit (st.blockData b) nodeEn = nodeEntrySpace env) :
    dxCheckNode env next b st = next st := by
  rw [dxCheckNode, Prog.bind_ok (dxData_run b), if_neg (not_not.2 h)]

/-- **The first leaf**: its hash is not above the one sought, and those of all
    entries behind it are. -/
theorem getLeaf_run {tree : DxTree} (hq : env.Quiet) (hv : ValidIndex env st tree)
    (hheld : Holds base (st.fblock 0 :: held) st) (hash : ℕ) :
    ∃ before e after path b st', dirDxGetLeaf env hash (.on (st.fblock 0)) st =
        (.ok ⟨.ok path, b⟩, st') ∧ SameBlocks st st' ∧
      Holds base (pathBlocks path ++ held) st' ∧ PathAt st tree before e after path ∧
      e.hash ≤ hash ∧ ∀ a ∈ after, hash < a.hash := by
  have hfirst := hv.first
  have hsorted := hv.sorted
  rw [dirDxGetLeaf, Prog.bind_ok (dxData_run _), blockData_on, hv.limit]
  cases hv.holds with
  | @flat es hlevels hes hlimit =>
    obtain ⟨es₁, e, es₂, rfl, hplace, hle, hgt⟩ := place_spec hes hsorted hlimit hash
    rw [hlevels, dxGetLeafLoop, Prog.bind_ok (dxData_run _), blockData_on, hplace]
    refine ⟨es₁, e, es₂, _, _, st, rfl, .refl st, hheld, .flat es₁ e es₂, ?_, hgt⟩
    rcases hle with rfl | hle
    · have := hfirst e rfl
      omega
    · exact hle
  | @deep nodes hlevels hes hlimit hne hnode hhead hnodeLimit =>
    rw [DxTree.leaves] at hsorted hfirst
    have hlimit' : (nodes.map Prod.fst).length ≤ rootEntrySpace env := by rwa [List.length_map]
    obtain ⟨tops₁, top, tops₂, htops, hplace, hle, hgt⟩ :=
      place_spec hes (tops_sorted hsorted hhead) hlimit' hash
    obtain ⟨ts₁, ts, rfl, rfl, hts⟩ := List.map_eq_append_iff.1 htops
    obtain ⟨t, ts₂, rfl, rfl, rfl⟩ := List.map_eq_cons_iff.1 hts
    have ht : t ∈ ts₁ ++ t :: ts₂ := List.mem_append_right _ (.head _)
    have hlen : ts₁.length < ((ts₁ ++ t :: ts₂).map Prod.fst).length := by simp
    have hblock : dxEntryGetBlock (st.data (st.fblock 0)) rootEn ts₁.length = t.1.block := by
      rw [hes.block _ hlen]
      simp
    rw [List.flatMap_append, List.flatMap_cons] at hsorted
    obtain ⟨-, hright, -⟩ := List.pairwise_append.1 hsorted
    obtain ⟨htsorted, hafter, -⟩ := List.pairwise_append.1 hright
    obtain ⟨hlim, hlen2⟩ := hnodeLimit t ht
    obtain ⟨es₁, e, es₂, hes2, hplace2, hle2, hgt2⟩ := place_spec (hnode t ht) htsorted hlen2 hash
    obtain ⟨top, nodeEs⟩ := t
    dsimp only at *
    subst hes2
    rw [List.length_map] at hplace
    have hbelow : ∀ a ∈ ts₂.flatMap Prod.snd, hash < a.hash :=
      node_above hafter (fun t' ht' => hhead t' (List.mem_append_right _ (.tail _ ht')))
        fun t' ht' => hgt t'.1 (List.mem_map_of_mem ht')
    rw [hlevels, dxGetLeafLoop, Prog.bind_ok (dxData_run _), blockData_on, hplace]
    dsimp only
    rw [Prog.bind_ok (getInodeDblkIdx_run hq _), hblock]
    dsimp only
    rw [Prog.bind_ok (transBlockGet_run hq _ _)]
    dsimp only
    rw [checkNode_run (by exact hlim), dxGetLeafLoop, Prog.bind_ok (dxData_run _)]
    have hplace3 : dxPlace ((st.tick.tick.incRef (st.fblock top.block)).blockData
        (.on (st.fblock top.block))) nodeEn (nodeEntrySpace env) hash = some es₁.length :=
      hplace2
    rw [hplace3]
    refine ⟨_, e, _, _, _, _, rfl, ?_, ?_, .deep ts₁ ts₂ top es₁ es₂ e, ?_, ?_⟩
    · exact ⟨rfl, rfl⟩
    · refine Holds.perm (hheld.tick.tick.incRef _) ?_
      exact List.Perm.swap ..
    · rcases hle2 with rfl | hle2
      · have hf := hhead (top, e :: es₂) ht
        have heq : e.hash = top.hash := Option.some.inj hf
        rcases hle with hnil | hle
        · have := hfirst e (by rw [List.map_eq_nil_iff.1 hnil]; rfl)
          omega
        · omega
      · exact hle2
    · intro a ha
      rcases List.mem_append.1 ha with ha | ha
      · exact hgt2 a ha
      · exact hbelow a ha

/-! ## The next leaf -/

/-- The handles of a path are in use. -/
def OnPath (path : List DxBlock) : Prop := ∀ p ∈ path, ∃ n ≠ 0, p.b = .on n

/-- The entry goes on with the hash. -/
def Continues (hash : ℕ) (a : DxEntry) : Prop := a.hash - a.hash % 2 = hash

instance (hash : ℕ) (a : DxEntry) : Decidable (Continues hash a) :=
  inferInstanceAs (Decidable (_ = _))

theorem HoldsEntries.block_at {es₁ es₂ : List DxEntry} {e : DxEntry}
    (h : HoldsEntries m en (es₁ ++ e :: es₂)) : dxEntryGetBlock m en es₁.length = e.block := by
  rw [h.block es₁.length (by simp), List.getElem_append_right le_rfl]
  simp

theorem HoldsEntries.hash_next {es₁ es₂ : List DxEntry} {e a : DxEntry}
    (h : HoldsEntries m en (es₁ ++ e :: a :: es₂)) :
    dxEntryGetHash m en (es₁.length + 1) = a.hash := by
  rw [h.hash (es₁.length + 1) (by simp) (Nat.succ_pos _), List.getElem_append_right (by omega)]
  simp

theorem HoldsEntries.block_next {es₁ es₂ : List DxEntry} {e a : DxEntry}
    (h : HoldsEntries m en (es₁ ++ e :: a :: es₂)) :
    dxEntryGetBlock m en (es₁.length + 1) = a.block := by
  rw [h.block (es₁.length + 1) (by simp), List.getElem_append_right (by omega)]
  simp

theorem onPath_nil : OnPath [] := fun _ hp => absurd hp List.not_mem_nil

theorem onPath_cons {p : DxBlock} {path : List DxBlock} {n : ℕ} (hn : n ≠ 0) (hp : p.b = .on n)
    (h : OnPath path) : OnPath (p :: path) := by
  intro q hq
  rcases List.mem_cons.1 hq with rfl | hq
  · exact ⟨n, hn, hp⟩
  · exact h q hq

theorem PathAt.onPath {tree : DxTree} {before after : List DxEntry} {e : DxEntry}
    {path : List DxBlock} (hv : ValidIndex env st tree)
    (hp : PathAt st tree before e after path) : OnPath path := by
  cases hp with
  | flat => exact onPath_cons hv.root rfl onPath_nil
  | deep ts₁ ts₂ t es₁ es₂ e =>
    cases hv.holds with
    | deep _ _ _ hne =>
      have hn := hne (t, es₁ ++ e :: es₂) (by simp)
      exact onPath_cons hv.root rfl (onPath_cons hn rfl onPath_nil)

/-- A path is released. -/
theorem releasePath_run {path : List DxBlock} (hon : OnPath path)
    (hheld : Holds base (pathBlocks path ++ held) st) :
    ∃ st', releasePath path st = (.ok (), st') ∧ SameBlocks st st' ∧ Holds base held st' := by
  induction path generalizing st with
  | nil => exact ⟨st, rfl, .refl st, hheld⟩
  | cons p path ih =>
    obtain ⟨n, hn, hpn⟩ := hon p (.head _)
    have hcons : pathBlocks (p :: path) = n :: pathBlocks path := by
      rw [pathBlocks, List.map_cons, hpn]
      rfl
    rw [hcons] at hheld
    obtain ⟨st', hrun, hsame, hheld'⟩ := ih (fun q hq => hon q (.tail _ hq)) hheld.decRef
    refine ⟨st', ?_, (SameBlocks.decRef st n).trans hsame, hheld'⟩
    rw [releasePath, hpn, Prog.bind_ok (blockSet_on hn hheld)]
    exact hrun

/-- The climb ends at a block with another entry, which continues the hash. -/
theorem continue_go {above below below' : List DxBlock} {p : DxBlock} {r : Option Errno}
    (hc : dxEntryGetHash (st.blockData p.b) p.entries p.position -
      dxEntryGetHash (st.blockData p.b) p.entries p.position % 2 = hash)
    (h : dxFillPath env p below st = (.ok (r, below'), st')) :
    dxContinue env hash st (.at above p below) st =
      (.ok (some (r.getD Errno.ENOENT), above.reverse ++ p :: below'), st') := by
  rw [dxContinue]
  dsimp only
  rw [if_neg fun h => h.2 hc, Prog.bind_ok h]
  rfl

/-- The climb ends at a block with another entry, which does not. -/
theorem continue_stop {above below : List DxBlock} {p : DxBlock} (heven : hash % 2 = 0)
    (hc : ¬ dxEntryGetHash (st.blockData p.b) p.entries p.position -
      dxEntryGetHash (st.blockData p.b) p.entries p.position % 2 = hash) :
    dxContinue env hash st (.at above p below) st =
      (.ok (none, above.reverse ++ p :: below), st) := by
  rw [dxContinue]
  dsimp only
  rw [if_pos ⟨heven, hc⟩]
  rfl

/-- One block of the path is replaced. -/
theorem fillPath_one (hq : env.Quiet) {p d : DxBlock} {n : ℕ} (hn : n ≠ 0) (hd : d.b = .on n)
    (hheld : Holds base (n :: held) st) :
    ∃ st', dxFillPath env p [d] st = (.ok (none, [⟨.on (st.fblock
        (dxEntryGetBlock (st.blockData p.b) p.entries p.position)), nodeEn, 0⟩]), st') ∧
      SameBlocks st st' ∧ Holds base (st.fblock
        (dxEntryGetBlock (st.blockData p.b) p.entries p.position) :: held) st' := by
  generalize hk : st.fblock (dxEntryGetBlock (st.blockData p.b) p.entries p.position) = k
  have hinc : Holds base (n :: k :: held) (st.tick.tick.incRef k) :=
    (hheld.tick.tick.incRef k).perm (.swap ..)
  refine ⟨(st.tick.tick.incRef k).decRef n, ?_, ⟨rfl, rfl⟩, hinc.decRef⟩
  rw [dxFillPath, Prog.bind_ok (dxData_run _), Prog.bind_ok (getInodeDblkIdx_run hq _), hk]
  dsimp only
  rw [Prog.bind_ok (transBlockGet_run hq _ _)]
  dsimp only
  rw [hd, Prog.bind_ok (blockSet_on hn hinc)]
  rfl

/-- How a call of `ext4_dir_dx_next_block` ends: it moved to the next entry, which
    continues the hash, or it stopped, and the next entry does not. -/
inductive NextBlock (st : DxSt) (base : ℕ → ℕ) (held : List ℕ) (tree : DxTree) (hash : ℕ)
    (before : List DxEntry) (e : DxEntry) (after : List DxEntry) :
    Except DxStop (Option Errno × List DxBlock) × DxSt → Prop
  | moved {a : DxEntry} {after' : List DxEntry} {path : List DxBlock} {st' : DxSt}
      (hafter : after = a :: after') (hcont : Continues hash a) (hsame : SameBlocks st st')
      (hheld : Holds base (pathBlocks path ++ held) st')
      (hpath : PathAt st tree (before ++ [e]) a after' path) :
      NextBlock st base held tree hash before e after (.ok (some Errno.ENOENT, path), st')
  | stopped {path : List DxBlock} (hstop : ∀ a ∈ after.head?, ¬ Continues hash a)
      (hheld : Holds base (pathBlocks path ++ held) st) (hon : OnPath path) :
      NextBlock st base held tree hash before e after (.ok (none, path), st)

/-- **The next leaf**. -/
theorem nextBlock_run {tree : DxTree} {before after : List DxEntry} {e : DxEntry}
    {path : List DxBlock} (hq : env.Quiet) (hv : ValidIndex env st tree) (heven : hash % 2 = 0)
    (hp : PathAt st tree before e after path)
    (hheld : Holds base (pathBlocks path ++ held) st) :
    NextBlock st base held tree hash before e after (dirDxNextBlock env hash path st) := by
  have hon := hp.onPath hv
  rw [dirDxNextBlock, Prog.bind_ok (Prog.get_run st)]
  cases hp with
  | flat =>
    cases hv.holds with
    | flat hlevels hes hlimit =>
      rw [List.reverse_singleton, dxClimb]
      dsimp only
      rw [blockData_on, hes.count]
      cases after with
      | nil =>
        rw [if_neg (by simp)]
        exact .stopped (by simp) hheld (onPath_cons hv.root rfl onPath_nil)
      | cons a after' =>
        rw [if_pos (by simp)]
        by_cases hc : Continues hash a
        · rw [continue_go (by rw [blockData_on, hes.hash_next]; exact hc) rfl]
          refine .moved rfl hc (.refl st) hheld ?_
          have h := @PathAt.flat st (before ++ [e]) a after'
          simpa using h
        · rw [continue_stop heven (by rw [blockData_on, hes.hash_next]; exact hc)]
          exact .stopped (by simpa using hc) hheld (onPath_cons hv.root rfl onPath_nil)
  | deep ts₁ ts₂ t es₁ es₂ e =>
    cases hv.holds with
    | deep hlevels hes hlimit hne hnode hhead hnodeLimit =>
      have ht : (t, es₁ ++ e :: es₂) ∈ ts₁ ++ (t, es₁ ++ e :: es₂) :: ts₂ := by simp
      have hes2 : HoldsEntries _ nodeEn (es₁ ++ e :: es₂) := hnode _ ht
      dsimp only at hes2
      have hn := hne _ ht
      rw [show [(⟨.on (st.fblock 0), rootEn, ts₁.length⟩ : DxBlock),
        ⟨.on (st.fblock t.block), nodeEn, es₁.length⟩].reverse =
        [⟨.on (st.fblock t.block), nodeEn, es₁.length⟩, ⟨.on (st.fblock 0), rootEn, ts₁.length⟩]
        from rfl, dxClimb]
      dsimp only
      rw [blockData_on, hes2.count]
      cases es₂ with
      | cons a es₂' =>
        rw [if_pos (by simp)]
        by_cases hc : Continues hash a
        · rw [continue_go (by rw [blockData_on, hes2.hash_next]; exact hc) rfl]
          refine .moved rfl hc (.refl st) hheld ?_
          have h := @PathAt.deep st ts₁ ts₂ t (es₁ ++ [e]) es₂' a
          simpa using h
        · rw [continue_stop heven (by rw [blockData_on, hes2.hash_next]; exact hc)]
          exact .stopped (by simpa using hc) hheld
            (onPath_cons hv.root rfl (onPath_cons hn rfl onPath_nil))
      | nil =>
        rw [if_neg (by simp), dxClimb]
        dsimp only
        rw [blockData_on, hes.count]
        cases ts₂ with
        | nil =>
          rw [if_neg (by simp), dxClimb]
          exact .stopped (by simp) hheld
            (onPath_cons hv.root rfl (onPath_cons hn rfl onPath_nil))
        | cons t' ts₂' =>
          obtain ⟨top', nodeEs'⟩ := t'
          have ht' : (top', nodeEs') ∈ ts₁ ++ (t, es₁ ++ [e]) :: (top', nodeEs') :: ts₂' := by simp
          obtain ⟨a, ha, hah⟩ := Option.map_eq_some_iff.1 (hhead _ ht')
          obtain ⟨es₃, rfl⟩ := List.head?_eq_some_iff.1 ha
          have hn' := hne _ ht'
          have htops : (ts₁ ++ (t, es₁ ++ [e]) :: (top', a :: es₃) :: ts₂').map Prod.fst =
              ts₁.map Prod.fst ++ t :: top' :: ts₂'.map Prod.fst := by simp
          rw [htops] at hes
          have hhash := hes.hash_next
          have hblock := hes.block_next
          rw [List.length_map] at hhash hblock
          dsimp only at hah hn'
          rw [if_pos (by simp)]
          by_cases hc : Continues hash a
          · have hswap : Holds base (st.fblock t.block :: st.fblock 0 :: held) st :=
              hheld.perm (.swap ..)
            obtain ⟨st', hrun, hsame, hheld'⟩ := @fillPath_one env st base _ hq
              ⟨.on (st.fblock 0), rootEn, ts₁.length + 1⟩
              ⟨.on (st.fblock t.block), nodeEn, es₁.length + 1⟩ _ hn rfl hswap
            rw [blockData_on] at hrun hheld'
            dsimp only at hrun hheld'
            rw [hblock] at hrun hheld'
            rw [continue_go (by rw [blockData_on, hhash, ← hah]; exact hc) hrun]
            refine .moved rfl hc hsame (hheld'.perm (.swap ..)) ?_
            have h := @PathAt.deep st (ts₁ ++ [(t, es₁ ++ [e])]) ts₂' top' [] es₃ a
            simpa [List.flatMap_def] using h
          · rw [continue_stop heven (by rw [blockData_on, hhash, ← hah]; exact hc)]
            exact .stopped (by simpa using hc) hheld
              (onPath_cons hv.root rfl (onPath_cons hn rfl onPath_nil))

/-! ## The leaves visited -/

/-- The range of a leaf can contain the hash: it begins with the hash of its
    entry, or with the one it continues, and ends where the next leaf begins. -/
def MayHold (hash : ℕ) (e : DxEntry) (after : List DxEntry) : Prop :=
  e.hash - e.hash % 2 ≤ hash ∧ ∀ e' ∈ after.head?, hash < e'.hash

instance (hash : ℕ) (e : DxEntry) (after : List DxEntry) : Decidable (MayHold hash e after) :=
  inferInstanceAs (Decidable (_ ∧ _))

/-- The leaves whose range can contain the hash, in order. -/
def candidates (hash : ℕ) : List DxEntry → List DxEntry
  | [] => []
  | e :: after =>
    if MayHold hash e after then e :: candidates hash after else candidates hash after

/-- Behind an entry above the hash, the candidates are those that continue it. -/
theorem candidates_above (heven : hash % 2 = 0) {after : List DxEntry} (hs : HashSorted after)
    (habove : ∀ a ∈ after, hash < a.hash) :
    candidates hash after = after.takeWhile fun a => Continues hash a := by
  induction after with
  | nil => rfl
  | cons a after ih =>
    obtain ⟨hle, hs'⟩ := List.pairwise_cons.1 hs
    have hgt := habove a (.head _)
    rw [candidates, List.takeWhile_cons]
    by_cases hc : Continues hash a
    · have hmay : MayHold hash a after := by
        refine ⟨hc.le, fun e' he' => ?_⟩
        exact habove e' (.tail _ (List.mem_of_mem_head? he'))
      rw [if_pos hmay, if_pos (decide_eq_true hc), ih hs' fun e he => habove e (.tail _ he)]
    · have hmay : ¬ MayHold hash a after := by
        rintro ⟨hlow, -⟩
        apply hc
        unfold Continues
        omega
      rw [if_neg hmay, if_neg (by simpa using hc), ih hs' fun e he => habove e (.tail _ he)]
      cases after with
      | nil => rfl
      | cons b after =>
        have := hle b (.head _)
        rw [List.takeWhile_cons, if_neg]
        rw [decide_eq_true_eq]
        unfold Continues at hc ⊢
        omega

/-- The candidates are the last entry not above the hash and those that continue
    the hash behind it. -/
theorem candidates_eq (heven : hash % 2 = 0) {before after : List DxEntry} {e : DxEntry}
    (hs : HashSorted (before ++ e :: after)) (hle : e.hash ≤ hash)
    (habove : ∀ a ∈ after, hash < a.hash) :
    candidates hash (before ++ e :: after) =
      e :: after.takeWhile fun a => Continues hash a := by
  induction before with
  | nil =>
    have hmay : MayHold hash e after :=
      ⟨(Nat.sub_le _ _).trans hle, fun e' he' => habove e' (List.mem_of_mem_head? he')⟩
    rw [List.nil_append, candidates, if_pos hmay,
      candidates_above heven (List.pairwise_cons.1 hs).2 habove]
  | cons b before ih =>
    obtain ⟨-, hs'⟩ := List.pairwise_cons.1 hs
    rw [List.cons_append, candidates, if_neg, ih hs']
    rintro ⟨-, hnext⟩
    cases before with
    | nil =>
      have := hnext e rfl
      omega
    | cons b' before =>
      have := hnext b' rfl
      have := (List.pairwise_cons.1 hs').1 e (by simp)
      omega

/-- The leaves that `ext4_dir_dx_next_block` comes to from a path on. -/
def dxVisitLoop (env : DxEnv) (hash : ℕ) : (fuel : ℕ) → List DxBlock → Dx (List ℕ)
  | 0, _ => Prog.fail .running
  | fuel + 1, path => do
    let st ← Prog.get
    let (rc, next) ← dirDxNextBlock env hash path
    if rc = some Errno.ENOENT then do
      let blocks ← dxVisitLoop env hash fuel next
      pure (leafBlockIdx st path :: blocks)
    else do
      releasePath next
      pure [leafBlockIdx st path]

/-- `ext4_dir_dx_get_leaf` and then `ext4_dir_dx_next_block` until it stops: the
    leaves. -/
def dxVisit (env : DxEnv) (hash fuel : ℕ) (rootBlock : ExtBlock) : Dx (List ℕ) := do
  let got ← dirDxGetLeaf env hash rootBlock
  match got.rc with
  | .error _ => pure []
  | .ok path => dxVisitLoop env hash fuel path

theorem leafBlockIdx_at {tree : DxTree} {before after : List DxEntry} {e : DxEntry}
    {path : List DxBlock} (hv : ValidIndex env st tree)
    (hp : PathAt st tree before e after path) : leafBlockIdx st path = e.block := by
  cases hp with
  | flat =>
    cases hv.holds with
    | flat _ hes => exact hes.block_at
  | deep ts₁ ts₂ t es₁ es₂ e =>
    cases hv.holds with
    | deep _ _ _ _ hnode => exact (hnode (t, es₁ ++ e :: es₂) (by simp)).block_at

theorem visitLoop_run {tree : DxTree} {before after : List DxEntry} {e : DxEntry}
    {path : List DxBlock} {fuel : ℕ} (hq : env.Quiet) (hv : ValidIndex env st tree)
    (heven : hash % 2 = 0) (hp : PathAt st tree before e after path)
    (hheld : Holds base (pathBlocks path ++ held) st) (hfuel : after.length < fuel) :
    ∃ st', dxVisitLoop env hash fuel path st =
        (.ok (e.block :: (after.takeWhile fun a => Continues hash a).map DxEntry.block), st') ∧
      SameBlocks st st' ∧ Holds base held st' := by
  induction fuel generalizing st path before e after with
  | zero => omega
  | succ fuel ih =>
    have hnext := nextBlock_run hq hv heven hp hheld
    rw [dxVisitLoop, Prog.bind_ok (Prog.get_run st), leafBlockIdx_at hv hp]
    generalize hrun : dirDxNextBlock env hash path st = x at hnext
    cases hnext with
    | @moved a after' path' st' hafter hcont hsame hheld' hpath =>
      subst hafter
      rw [Prog.bind_ok hrun]
      dsimp only
      rw [if_pos rfl]
      rw [List.length_cons] at hfuel
      obtain ⟨st'', hrun', hsame', hheld''⟩ := ih (hsame.validIndex hv) (hsame.pathAt hpath)
        hheld' (by omega)
      refine ⟨st'', ?_, hsame.trans hsame', hheld''⟩
      rw [Prog.bind_ok hrun', List.takeWhile_cons, if_pos (decide_eq_true hcont)]
      rfl
    | @stopped path' hstop hheld' hon =>
      rw [Prog.bind_ok hrun]
      dsimp only
      rw [if_neg nofun]
      obtain ⟨st', hrun', hsame, hheld''⟩ := releasePath_run hon hheld'
      refine ⟨st', ?_, hsame, hheld''⟩
      rw [Prog.bind_ok hrun']
      cases after with
      | nil => rfl
      | cons a after =>
        rw [List.takeWhile_cons, if_neg (by simpa using hstop)]
        rfl

/-- **The leaves visited** are those whose range can contain the hash, in order. -/
theorem visit_run {tree : DxTree} {fuel : ℕ} (hq : env.Quiet) (hv : ValidIndex env st tree)
    (heven : hash % 2 = 0) (hheld : Holds base (st.fblock 0 :: held) st)
    (hfuel : tree.leaves.length ≤ fuel) :
    ∃ st', dxVisit env hash fuel (.on (st.fblock 0)) st =
        (.ok ((candidates hash tree.leaves).map DxEntry.block), st') ∧
      SameBlocks st st' ∧ Holds base held st' := by
  obtain ⟨before, e, after, path, b, st₁, hrun, hsame, hheld₁, hpath, hle, habove⟩ :=
    getLeaf_run hq hv hheld hash
  have hleaves := hpath.leaves
  have hsorted := hv.sorted
  rw [hleaves] at hfuel hsorted
  rw [List.length_append, List.length_cons] at hfuel
  obtain ⟨st₂, hrun₂, hsame₂, hheld₂⟩ := visitLoop_run hq (hsame.validIndex hv) heven
    (hsame.pathAt hpath) hheld₁ (show after.length < fuel by omega)
  refine ⟨st₂, ?_, hsame.trans hsame₂, hheld₂⟩
  rw [dxVisit, Prog.bind_ok hrun, hleaves, candidates_eq heven hsorted hle habove]
  exact hrun₂

/-! ## The search of a name -/

/-- The version of the hash function. -/
def dxHashVersion (env : DxEnv) (m : Mem) : ℕ :=
  if env.unsignedHash then rinfoGetHashVersion m + 3 else rinfoGetHashVersion m

/-- The hash of a name in a directory. -/
def dxHash (env : DxEnv) (st : DxSt) (name : List Byte) : Except Errno ℕ :=
  ext2HtreeHash env.hashSeed (dxHashVersion env (st.data (st.fblock 0))) name

/-- The leaf of an entry. -/
def leafData (st : DxSt) (e : DxEntry) : Mem := st.data (st.fblock e.block)

/-- The leaves of an index are directory blocks, and each name is in a leaf whose
    range can contain its hash. -/
def ValidLeaves (env : DxEnv) (st : DxSt) (leaves : List DxEntry) : Prop :=
  ∀ before e after, leaves = before ++ e :: after → st.fblock e.block ≠ 0 ∧
    ∃ es, DirBlock env.sb (leafData st e) es ∧
      ∀ l ∈ links es, ∃ hash, dxHash env st l.name = .ok hash ∧ MayHold hash e after

/-- The name is in use in the leaf. -/
def InLeaf (env : DxEnv) (st : DxSt) (name : List Byte) (e : DxEntry) : Prop :=
  ∃ es, DirBlock env.sb (leafData st e) es ∧ ∃ l ∈ links es, l.name = name

/-- The block and the offset are those of an entry in use for the name. -/
def IsEntry (env : DxEnv) (st : DxSt) (name : List Byte) (e : DxEntry) (b : ExtBlock) (de : ℕ) :
    Prop :=
  b = .on (st.fblock e.block) ∧ ∃ es, DirBlock env.sb (leafData st e) es ∧
    ∃ l ∈ links es, l.name = name ∧ dirEnGetInode (leafData st e) de = l.inode

theorem mem_candidates {before after : List DxEntry} {e : DxEntry} (h : MayHold hash e after) :
    e ∈ candidates hash (before ++ e :: after) := by
  induction before with
  | nil =>
    rw [List.nil_append, candidates, if_pos h]
    exact .head _
  | cons b before ih =>
    rw [List.cons_append, candidates]
    split_ifs
    · exact .tail _ ih
    · exact ih

theorem hinfoInit_run {tree : DxTree} (hv : ValidIndex env st tree) (name : List Byte) :
    dirHinfoInit env (st.data (st.fblock 0)) name =
      match dxHash env st name with
      | .error e => .error e
      | .ok hash => .ok (dxHashVersion env (st.data (st.fblock 0)), hash) := by
  have hlevels : ¬ 1 < rinfoGetIndirectLevels (st.data (st.fblock 0)) := by
    cases hv.holds with
    | flat h => omega
    | deep h => omega
  rw [dirHinfoInit]
  dsimp only
  rw [if_neg (Nat.not_lt.2 hv.version), if_neg (not_not.2 hv.flags), if_neg hlevels,
    if_neg (not_not.2 hv.limit)]
  rfl

/-- What the search in a leaf comes to. -/
inductive LeafSearch (env : DxEnv) (st : DxSt) (base : ℕ → ℕ) (held : List ℕ) (name : List Byte)
    (e : DxEntry) : Except DxStop LeafFound × DxSt → Prop
  | found {b : ExtBlock} {de : ℕ} {st' : DxSt} (hent : IsEntry env st name e b de)
      (hsame : SameBlocks st st') (hheld : Holds base (st.fblock e.block :: held) st') :
      LeafSearch env st base held name e (.ok (.done (.ok (b, de))), st')
  | none {st' : DxSt} (hnot : ¬ InLeaf env st name e) (hsame : SameBlocks st st')
      (hheld : Holds base held st') : LeafSearch env st base held name e (.ok .next, st')

/-- **The search in a leaf**. -/
theorem searchLeaf_run {tree : DxTree} {before after : List DxEntry} {e : DxEntry}
    {path : List DxBlock} {name : List Byte} (hbs : dirEntryTailSize ≤ env.sb.blockSize)
    (hq : env.Quiet) (hv : ValidIndex env st tree) (hl : ValidLeaves env st tree.leaves)
    (hp : PathAt st tree before e after path) (hheld : Holds base held st) :
    LeafSearch env st base held name e (dxSearchLeaf env name path st) := by
  obtain ⟨hne, es, hes, -⟩ := hl before e after hp.leaves
  have hexact := @findExact env.sb (leafData st e) name es hbs hes
  rw [dxSearchLeaf, Prog.bind_ok (Prog.get_run st), Prog.bind_ok (getInodeDblkIdx_run hq _),
    leafBlockIdx_at hv hp]
  dsimp only
  rw [Prog.bind_ok (transBlockGet_run hq _ _)]
  dsimp only
  rw [Prog.bind_ok (dxData_run _)]
  have hdata : (st.tick.tick.incRef (st.fblock e.block)).blockData (.on (st.fblock e.block)) =
      leafData st e := rfl
  rw [hdata]
  have hheld' : Holds base (st.fblock e.block :: held) (st.tick.tick.incRef (st.fblock e.block)) :=
    hheld.tick.tick.incRef _
  have hnot : ext4DirFindInBlock env.sb (leafData st e) name =
      some (.error (.rc Errno.ENOENT)) → ¬ InLeaf env st name e := by
    rintro hfind ⟨es', hes', l, hl', hname⟩
    have h := @findExact env.sb (leafData st e) name es' hbs hes'
    rw [FindExact, hfind] at h
    exact h.2 l hl' hname
  unfold FindExact at hexact
  cases hfind : ext4DirFindInBlock env.sb (leafData st e) name with
  | none =>
    rw [hfind] at hexact
    exact hexact.elim
  | some r =>
    rw [hfind] at hexact
    cases r with
    | ok de =>
      obtain ⟨l, hl', hname, hinode⟩ := hexact
      exact .found ⟨rfl, es, hes, l, hl', hname, hinode⟩ ⟨rfl, rfl⟩ hheld'
    | error stop =>
      obtain ⟨rfl, -⟩ := hexact
      dsimp only
      rw [Prog.bind_ok (blockSet_on hne hheld')]
      exact .none (hnot hfind) ⟨rfl, rfl⟩ hheld'.decRef

theorem SameBlocks.leafData (h : SameBlocks st st') (e : DxEntry) :
    leafData st' e = leafData st e := by
  rw [DirIdx.leafData, DirIdx.leafData, h.data, h.fblock]

theorem SameBlocks.inLeaf (h : SameBlocks st st') {name : List Byte} {e : DxEntry} :
    InLeaf env st' name e ↔ InLeaf env st name e := by
  rw [InLeaf, InLeaf, h.leafData]

theorem SameBlocks.isEntry (h : SameBlocks st st') {name : List Byte} {e : DxEntry}
    {b : ExtBlock} {de : ℕ} : IsEntry env st' name e b de ↔ IsEntry env st name e b de := by
  rw [IsEntry, IsEntry, h.leafData, h.fblock]

theorem SameBlocks.validLeaves (h : SameBlocks st st') {leaves : List DxEntry}
    (hl : ValidLeaves env st leaves) : ValidLeaves env st' leaves := by
  intro before e after heq
  obtain ⟨hne, es, hes, hnames⟩ := hl before e after heq
  refine ⟨by rwa [h.fblock], es, by rwa [h.leafData], ?_⟩
  unfold dxHash at hnames ⊢
  rwa [h.data, h.fblock]

/-- What the loop of `ext4_dir_dx_find_entry` comes to; `leaves` are those it
    looks at if it finds nothing. -/
inductive FindLoop (env : DxEnv) (st : DxSt) (base : ℕ → ℕ) (held : List ℕ) (name : List Byte)
    (leaves : List DxEntry) :
    Except DxStop (Except Errno (ExtBlock × ℕ) × List DxBlock) × DxSt → Prop
  | found {a : DxEntry} {b : ExtBlock} {de : ℕ} {path : List DxBlock} {st' : DxSt}
      (hmem : a ∈ leaves) (hent : IsEntry env st name a b de) (hsame : SameBlocks st st')
      (hheld : Holds base (pathBlocks path ++ st.fblock a.block :: held) st')
      (hon : OnPath path) : FindLoop env st base held name leaves (.ok (.ok (b, de), path), st')
  | absent {path : List DxBlock} {st' : DxSt} (hnot : ∀ a ∈ leaves, ¬ InLeaf env st name a)
      (hsame : SameBlocks st st') (hheld : Holds base (pathBlocks path ++ held) st')
      (hon : OnPath path) :
      FindLoop env st base held name leaves (.ok (.error Errno.ENOENT, path), st')

theorem findLoop_run {tree : DxTree} {before after : List DxEntry} {e : DxEntry}
    {path : List DxBlock} {name : List Byte} {fuel : ℕ}
    (hbs : dirEntryTailSize ≤ env.sb.blockSize) (hq : env.Quiet) (hv : ValidIndex env st tree)
    (hl : ValidLeaves env st tree.leaves) (heven : hash % 2 = 0)
    (hp : PathAt st tree before e after path) (hheld : Holds base (pathBlocks path ++ held) st)
    (hfuel : after.length < fuel) :
    FindLoop env st base held name (e :: after.takeWhile fun a => Continues hash a)
      (dxFindLoop env hash name fuel path st) := by
  induction fuel generalizing st path before e after with
  | zero => omega
  | succ fuel ih =>
    have hleaf := @searchLeaf_run env st base _ tree before after e path name hbs hq hv hl hp hheld
    rw [dxFindLoop]
    generalize hrun : dxSearchLeaf env name path st = x at hleaf
    cases hleaf with
    | @found b de st₁ hent hsame hheld₁ =>
      rw [Prog.bind_ok hrun]
      exact .found (.head _) hent hsame (hheld₁.perm List.perm_middle.symm) (hp.onPath hv)
    | @none st₁ hnot hsame hheld₁ =>
      rw [Prog.bind_ok hrun]
      dsimp only
      have hv₁ := hsame.validIndex hv
      have hnext := nextBlock_run hq hv₁ heven (hsame.pathAt hp) hheld₁
      generalize hrun₁ : dirDxNextBlock env hash path st₁ = y at hnext
      cases hnext with
      | @moved a after' path' st₂ hafter hcont hsame₂ hheld₂ hpath =>
        subst hafter
        rw [Prog.bind_ok hrun₁]
        dsimp only
        rw [if_pos rfl, List.takeWhile_cons, if_pos (decide_eq_true hcont)]
        rw [List.length_cons] at hfuel
        have hsame' := hsame.trans hsame₂
        have hloop := ih (hsame₂.validIndex hv₁) (hsame'.validLeaves hl) (hsame₂.pathAt hpath)
          hheld₂ (by omega)
        generalize dxFindLoop env hash name fuel path' st₂ = z at hloop
        cases hloop with
        | found hmem hent hsame₃ hheld₃ hon =>
          rw [hsame'.fblock] at hheld₃
          exact .found (.tail _ hmem) (hsame'.isEntry.1 hent) (hsame'.trans hsame₃) hheld₃ hon
        | absent hnot' hsame₃ hheld₃ hon =>
          refine .absent (fun c hc => ?_) (hsame'.trans hsame₃) hheld₃ hon
          rcases List.mem_cons.1 hc with rfl | hc
          · exact hnot
          · exact fun h => hnot' c hc (hsame'.inLeaf.2 h)
      | @stopped path' hstop hheld₂ hon =>
        rw [Prog.bind_ok hrun₁]
        dsimp only
        rw [if_neg nofun]
        refine .absent (fun c hc => ?_) hsame hheld₂ hon
        cases after with
        | nil =>
          rw [List.takeWhile_nil, List.mem_singleton] at hc
          exact hc ▸ hnot
        | cons a after =>
          rw [List.takeWhile_cons, if_neg (by simpa using hstop), List.mem_singleton] at hc
          exact hc ▸ hnot

/-- What `ext4_dir_dx_find_entry` returns: the entry of the name, `ENOENT` if no
    leaf has the name, or an error if it is no name that has a hash. -/
inductive DxLookup (env : DxEnv) (st : DxSt) (base : ℕ → ℕ) (name : List Byte)
    (leaves : List DxEntry) : Except DxStop (Except Errno (ExtBlock × ℕ)) × DxSt → Prop
  | found {e : DxEntry} {b : ExtBlock} {de : ℕ} {st' : DxSt} (hmem : e ∈ leaves)
      (hent : IsEntry env st name e b de) (hheld : Holds base [st.fblock e.block] st') :
      DxLookup env st base name leaves (.ok (.ok (b, de)), st')
  | absent {st' : DxSt} (hnot : ∀ e ∈ leaves, ¬ InLeaf env st name e) (hheld : Holds base [] st') :
      DxLookup env st base name leaves (.ok (.error Errno.ENOENT), st')
  | noHash {err : Errno} {st' : DxSt} (hhash : dxHash env st name = .error err)
      (hheld : Holds base [] st') :
      DxLookup env st base name leaves (.ok (.error Errno.BAD_DX_DIR), st')

/-- A name is in no leaf if it is in no candidate. -/
theorem not_inLeaf {leaves : List DxEntry} {name : List Byte}
    (hbs : dirEntryTailSize ≤ env.sb.blockSize) (hl : ValidLeaves env st leaves)
    (hhash : dxHash env st name = .ok hash)
    (h : ∀ e ∈ candidates hash leaves, ¬ InLeaf env st name e) :
    ∀ e ∈ leaves, ¬ InLeaf env st name e := by
  rintro e hmem ⟨es', hes', l, hl', hname⟩
  obtain ⟨before, after, rfl⟩ := List.append_of_mem hmem
  obtain ⟨-, es, hes, hnames⟩ := hl before e after rfl
  -- the names of a leaf do not depend on how it is taken apart
  obtain ⟨l₂, hl₂, hname₂⟩ : ∃ l ∈ links es, l.name = name := by
    have h1 := @findExact env.sb (leafData st e) name es hbs hes
    have h2 := @findExact env.sb (leafData st e) name es' hbs hes'
    unfold FindExact at h1 h2
    cases hfind : ext4DirFindInBlock env.sb (leafData st e) name with
    | none =>
      rw [hfind] at h1
      exact h1.elim
    | some r =>
      rw [hfind] at h1 h2
      cases r with
      | ok de =>
        obtain ⟨l, hl, hname, -⟩ := h1
        exact ⟨l, hl, hname⟩
      | error stop => exact absurd hname (h2.2 l hl')
  obtain ⟨hash', hh, hmay⟩ := hnames l₂ hl₂
  rw [hname₂, hhash] at hh
  cases hh
  exact h e (mem_candidates hmay) ⟨es, hes, l₂, hl₂, hname₂⟩

/-- **The search of a name**. -/
theorem findEntry_run {tree : DxTree} {name : List Byte} {fuel : ℕ}
    (hbs : dirEntryTailSize ≤ env.sb.blockSize) (hq : env.Quiet) (hv : ValidIndex env st tree)
    (hl : ValidLeaves env st tree.leaves) (hfuel : tree.leaves.length ≤ fuel) :
    DxLookup env st st.refs name tree.leaves (dirDxFindEntry env fuel name st) := by
  have hheld : Holds st.refs [] st := fun n => rfl
  have hheld₀ : Holds st.refs [st.fblock 0] (st.tick.tick.incRef (st.fblock 0)) :=
    hheld.tick.tick.incRef _
  rw [dirDxFindEntry, Prog.bind_ok (getInodeDblkIdx_run hq 0)]
  dsimp only
  rw [Prog.bind_ok (transBlockGet_run hq _ _)]
  dsimp only
  rw [Prog.bind_ok (dxData_run _)]
  have hdata : (st.tick.tick.incRef (st.fblock 0)).blockData (.on (st.fblock 0)) =
      st.data (st.fblock 0) := rfl
  rw [hdata, hinfoInit_run hv]
  cases hhash : dxHash env st name with
  | error err =>
    dsimp only
    rw [Prog.bind_ok (blockSet_on hv.root hheld₀)]
    exact .noHash hhash hheld₀.decRef
  | ok hash =>
    dsimp only
    have hsame₀ : SameBlocks st (st.tick.tick.incRef (st.fblock 0)) := ⟨rfl, rfl⟩
    have heven := (htreeHash_even hhash).1
    have hv₀ := hsame₀.validIndex hv
    obtain ⟨before, e, after, path, b, st₁, hrun, hsame, hheld₁, hpath, hle, habove⟩ :=
      getLeaf_run hq hv₀ hheld₀ hash
    change dirDxGetLeaf env hash (.on (st.fblock 0)) _ = _ at hrun
    have hleaves := hpath.leaves
    have hsorted := hv.sorted
    have hlen : after.length < fuel := by
      rw [hleaves, List.length_append, List.length_cons] at hfuel
      omega
    rw [hleaves] at hsorted
    have hcand := candidates_eq heven hsorted hle habove
    rw [← hleaves] at hcand
    have hsame₁ := hsame₀.trans hsame
    have hloop := @findLoop_run env st₁ st.refs [] hash tree before after e path name fuel hbs hq
      (hsame.validIndex hv₀) (hsame₁.validLeaves hl) heven (hsame.pathAt hpath) hheld₁ hlen
    rw [← hcand] at hloop
    rw [dxFindFrom, Prog.bind_ok hrun]
    dsimp only
    generalize hrun₂ : dxFindLoop env hash name fuel path st₁ = x at hloop
    have hsub : ∀ a ∈ candidates hash tree.leaves, a ∈ tree.leaves := by
      intro a ha
      rw [hcand] at ha
      rw [hleaves]
      refine List.mem_append_right _ ?_
      rcases List.mem_cons.1 ha with rfl | ha
      · exact .head _
      · exact .tail _ (List.takeWhile_subset _ ha)
    cases hloop with
    | @found a b de path' st₂ hmem hent hsame₂ hheld₂ hon =>
      obtain ⟨st₃, hrun₃, hsame₃, hheld₃⟩ := releasePath_run hon hheld₂
      rw [Prog.bind_ok hrun₂]
      dsimp only
      rw [Prog.bind_ok hrun₃]
      rw [hsame₁.fblock] at hheld₃
      exact .found (hsub a hmem) (hsame₁.isEntry.1 hent) hheld₃
    | @absent path' st₂ hnot hsame₂ hheld₂ hon =>
      obtain ⟨st₃, hrun₃, hsame₃, hheld₃⟩ := releasePath_run hon hheld₂
      rw [Prog.bind_ok hrun₂]
      dsimp only
      rw [Prog.bind_ok hrun₃]
      refine .absent (not_inLeaf hbs hl hhash fun a ha h => ?_) hheld₃
      exact hnot a ha (hsame₁.inLeaf.2 h)

/-- **The lookup is right**: on a valid index the leaves visited for a hash are
    those whose range can contain it, in order, and `ENOENT` is returned only for
    a name that is in no leaf. -/
theorem dxLookup_correct (env : DxEnv) (st : DxSt) (tree : DxTree)
    (hbs : dirEntryTailSize ≤ env.sb.blockSize) (hq : env.Quiet) (hv : ValidIndex env st tree)
    (hl : ValidLeaves env st tree.leaves) :
    (∀ hash fuel, hash % 2 = 0 → tree.leaves.length ≤ fuel → ∃ st',
      dxVisit env hash fuel (.on (st.fblock 0)) (st.incRef (st.fblock 0)) =
        (.ok ((candidates hash tree.leaves).map DxEntry.block), st')) ∧
    ∀ name fuel, tree.leaves.length ≤ fuel →
      DxLookup env st st.refs name tree.leaves (dirDxFindEntry env fuel name st) := by
  refine ⟨fun hash fuel heven hfuel => ?_, fun name fuel hfuel =>
    findEntry_run hbs hq hv hl hfuel⟩
  have hheld : Holds st.refs [st.fblock 0] (st.incRef (st.fblock 0)) :=
    Holds.incRef (fun n => rfl) _
  have hsame := SameBlocks.incRef st (st.fblock 0)
  obtain ⟨st', hrun, -⟩ := visit_run hq (hsame.validIndex hv) heven hheld hfuel
  exact ⟨st', hrun⟩

end

/-- A block with some bytes, and 0 elsewhere. -/
def sparseMem (bytes : List (ℕ × Byte)) : Mem := fun i => (bytes.lookup i).getD 0

/-- A file system without checksums where no call fails. -/
def plainEnv : DxEnv where
  sb := ⟨1024, false, false⟩
  hashSeed := ⟨0, 0, 0, 0⟩
  unsignedHash := false
  csum := fun _ => 0
  dxCsum := fun _ _ _ _ => 0
  qsort := default
  fault := fun _ => none

/-- Two nodes with a leaf each, which hold the names `z` and `a`; the hash 3500000000 goes on from
    the first into the second. -/
def twoNodes : DxSt where
  data := fun n => match n with
    | 10 => sparseMem [(29, 8), (30, 1), (32, 124), (34, 2), (36, 1),
        (40, 0x01), (41, 0xC3), (42, 0x9D), (43, 0xD0), (44, 2)]
    | 11 => sparseMem [(8, 127), (10, 1), (12, 3)]
    | 12 => sparseMem [(8, 127), (10, 1), (12, 4)]
    | 13 => sparseMem [(0, 12), (5, 4), (6, 1), (7, 1), (8, 122)]
    | _ => sparseMem [(0, 13), (5, 4), (6, 1), (7, 1), (8, 97)]
  refs := fun _ => 0
  fblock := fun i => i + 10
  blocks := 5
  free := []
  ops := 0

/-- Both leaves are visited for the hash between them, and `a` is found in the second one. -/
theorem dxLookup_correct_two :
    (∃ st', dxVisit plainEnv 3500000000 2 (.on 10) (twoNodes.incRef 10) = (.ok [3, 4], st')) ∧
      DxLookup plainEnv twoNodes twoNodes.refs [97] [⟨0, 3⟩, ⟨3500000001, 4⟩]
        (dirDxFindEntry plainEnv 2 [97] twoNodes) ∧
      (dirDxFindEntry plainEnv 2 [97] twoNodes).1 = .ok (.ok (.on 14, 0)) := by
  have hv : ValidIndex plainEnv twoNodes
      (.deep [(⟨0, 1⟩, [⟨0, 3⟩]), (⟨3500000001, 2⟩, [⟨3500000001, 4⟩])]) := by
    refine ⟨by decide, by decide, by decide, by decide, ?_, ?_, ?_⟩
    · refine .deep (by decide) ⟨by decide, by decide, by decide, by decide⟩ (by decide) (by decide)
        (fun t ht => ?_) (by decide) (by decide)
      rcases List.mem_cons.1 ht with rfl | ht
      · exact ⟨by decide, by decide, by decide, by decide⟩
      · rw [List.mem_singleton] at ht
        subst ht
        exact ⟨by decide, by decide, by decide, by decide⟩
    · exact List.pairwise_pair.2 (by decide)
    · intro e he
      cases he
      rfl
  have hl : ValidLeaves plainEnv twoNodes [⟨0, 3⟩, ⟨3500000001, 4⟩] := by
    have hz : DirBlock plainEnv.sb (twoNodes.data 13) [⟨12, 1024, 1, [122]⟩] :=
      Packed.single ⟨by decide, by decide, by decide, by decide, by decide, by decide,
        fun _ => by decide, fun _ => by decide, fun _ => by decide, fun _ => by decide⟩ (by decide)
    have ha : DirBlock plainEnv.sb (twoNodes.data 14) [⟨13, 1024, 1, [97]⟩] :=
      Packed.single ⟨by decide, by decide, by decide, by decide, by decide, by decide,
        fun _ => by decide, fun _ => by decide, fun _ => by decide, fun _ => by decide⟩ (by decide)
    intro before e after heq
    rcases before with - | ⟨x, - | ⟨y, before⟩⟩
    · obtain ⟨rfl, rfl⟩ := List.cons.inj heq
      refine ⟨by decide, _, hz, fun l hl => ⟨3164241872, ?_⟩⟩
      obtain rfl := List.mem_singleton.1 hl
      exact ⟨by decide +kernel, by decide⟩
    · obtain ⟨rfl, rfl⟩ := List.cons.inj (List.cons.inj heq).2
      refine ⟨by decide, _, ha, fun l hl => ⟨3880473570, ?_⟩⟩
      obtain rfl := List.mem_singleton.1 hl
      exact ⟨by decide +kernel, by decide⟩
    · simp at heq
  obtain ⟨h1, h2⟩ := dxLookup_correct plainEnv twoNodes _ (by decide) (fun _ => rfl) hv hl
  exact ⟨h1 3500000000 2 (by decide) (by decide), h2 [97] 2 (by decide), by decide +kernel⟩

end Lwext4.DirIdx
