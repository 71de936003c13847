import Switchyard.Proofs.Edit

namespace Switchyard.Edit

open Std

variable [Numbering] {tight : Prop} {n : Network}

theorem checkTerminal_cases (n : Network) (t : Terminal) :
    (n.Free t ∧ checkTerminal t n = .ok () n) ∨ Refuses (checkTerminal t) n := by
  obtain ⟨vl, connection⟩ := t
  unfold checkTerminal Refuses
  simp only [bind_apply, get_apply]
  cases hv : n.voltageLevels[vl]? with
  | none => exact Or.inr ⟨_, rfl, by simp [Fault.kind]⟩
  | some v =>
    have hi : n.inside? vl = some v.topology := Network.inside?_eq_some_iff.mpr ⟨v, hv, rfl⟩
    dsimp only
    cases connection with
    | node node =>
      cases ht : v.topology with
      | nodeBreaker w =>
        dsimp only
        cases hw : w.terminals[node]? with
        | none => exact Or.inl ⟨⟨w, ht ▸ hi, by simpa using hw⟩, rfl⟩
        | some other => exact Or.inr ⟨_, rfl, by simp [Fault.kind]⟩
      | busBreaker l => exact Or.inr ⟨_, rfl, by simp [Fault.kind]⟩
    | bus bus =>
      cases ht : v.topology with
      | nodeBreaker w => exact Or.inr ⟨_, rfl, by simp [Fault.kind]⟩
      | busBreaker l =>
        dsimp only
        cases hb : l.buses.contains bus with
        | true => exact Or.inl ⟨⟨l, ht ▸ hi, by simpa using hb⟩, rfl⟩
        | false => exact Or.inr ⟨_, rfl, by simp [Fault.kind]⟩

section Checks

variable {earlier rest : List Terminal} {t : Terminal}

/-- A terminal that passes joins those checked earlier. -/
theorem checkTerminals_next (ht : checkTerminal t n = .ok () n)
    (hshared : ¬(t.node?.isSome ∧ t ∈ earlier)) :
    checkTerminals earlier (t :: rest) n = checkTerminals (t :: earlier) rest n := by
  simp only [checkTerminals, bind_apply, ht]
  cases hn : t.node? with
  | none => rfl
  | some node => simp only [if_neg fun hm => hshared ⟨by simp [hn], hm⟩]

theorem checkTerminals_shared (ht : checkTerminal t n = .ok () n) {node : Node}
    (hnode : t.node? = some node) (hm : t ∈ earlier) :
    checkTerminals earlier (t :: rest) n = .error (.nodeShared node t.voltageLevel) n := by
  simp only [checkTerminals, bind_apply, ht, hnode, hm, if_true]
  rfl

theorem checkTerminals_refused {f : Fault} (ht : checkTerminal t n = .error f n) :
    checkTerminals earlier (t :: rest) n = .error f n := by
  simp only [checkTerminals, bind_apply, ht]

end Checks

/-- Terminals that pass the checks are free, and no two of them are at one node. -/
theorem checkTerminals_cases (n : Network) (earlier ts : List Terminal) :
    ((∀ t ∈ ts, n.Free t) ∧ (∀ t ∈ ts, ∀ u ∈ earlier, t.Apart u) ∧
        ts.Pairwise (fun t u => u.Apart t) ∧ checkTerminals earlier ts n = .ok () n) ∨
      Refuses (checkTerminals earlier ts) n := by
  induction ts generalizing earlier with
  | nil => exact Or.inl ⟨by simp, by simp, .nil, rfl⟩
  | cons t rest ih =>
    rcases checkTerminal_cases n t with ⟨hfree, ht⟩ | ⟨f, ht, hf⟩
    · by_cases hshared : t.node?.isSome ∧ t ∈ earlier
      · obtain ⟨node, hnode⟩ := Option.isSome_iff_exists.mp hshared.1
        exact Or.inr ⟨.nodeShared node t.voltageLevel, checkTerminals_shared ht hnode hshared.2,
          by simp [Fault.kind]⟩
      · have hon : checkTerminals earlier (t :: rest) n = checkTerminals (t :: earlier) rest n :=
          checkTerminals_next ht hshared
        have hapart : ∀ u ∈ earlier, t.Apart u := fun u hu hs he => hshared ⟨hs, he ▸ hu⟩
        rcases ih (t :: earlier) with ⟨hfrees, haparts, hpair, hok⟩ | ⟨f, he, hf⟩
        · refine Or.inl ⟨?_, ?_, ?_, hon.trans hok⟩
          · exact List.forall_mem_cons.mpr ⟨hfree, hfrees⟩
          · exact List.forall_mem_cons.mpr
              ⟨hapart, fun u hu v hv => haparts u hu v (List.mem_cons_of_mem t hv)⟩
          · exact List.pairwise_cons.mpr ⟨fun u hu => haparts u hu t List.mem_cons_self, hpair⟩
        · exact Or.inr ⟨f, hon.trans he, hf⟩
    · exact Or.inr ⟨f, checkTerminals_refused ht, hf⟩

theorem attach_one (hn : ∀ vl w, n.inside? vl = some (.nodeBreaker w) → w.Firm tight) {vl : String}
    {node : Node} (hfree : n.Free (.atNode vl node)) (a : Attachment) :
    ∃ w w' m, n.inside? vl = some (.nodeBreaker w) ∧ w.attach node a = .ok w' ∧
      m = n.setTopology vl (.nodeBreaker w') ∧ Network.Rewired tight n m ∧
      ∀ other k b, m.HoldsAt other k b ↔
        n.HoldsAt other k b ∨ other = vl ∧ k = node ∧ b = a := by
  obtain ⟨w, hw, hnode⟩ := hfree
  have hw : n.inside? vl = some (.nodeBreaker w) := hw
  obtain ⟨hs, ht⟩ := hn vl w hw
  obtain ⟨w', he, hs', hsw, hterm, ht'⟩ := hs.attach hnode a
  refine ⟨w, w', _, hw, he, rfl, ?_, ?_⟩
  · exact Network.rewired_setTopology hw (.wiring ⟨hs', fun h => ht' (ht h)⟩ hsw)
  · intro other k b
    rw [Network.holdsAt_setTopology hw]
    split
    next ho =>
      have heq := ho
      subst heq
      have hold : n.HoldsAt vl k b ↔ w.terminals[k]? = some b := by
        simp [Network.HoldsAt, hw]
      rw [hold, hterm, ExtTreeMap.getElem?_insert]
      have hnone := ExtTreeMap.getElem?_eq_none hnode
      simp only [Std.compare_eq_iff_eq]
      grind
    next ho =>
      constructor
      · exact Or.inl
      · intro hx
        rcases hx with h | ⟨he, -, -⟩
        · exact h
        · exact absurd he.symm ho

/-- Sides at free nodes, all different, are all attached. -/
theorem attachTerminals_spec (hn : ∀ vl w, n.inside? vl = some (.nodeBreaker w) → w.Firm tight)
    (connectable : String) {ts : List (Side × Terminal)} (hfree : ∀ x ∈ ts, n.Free x.2)
    (hpair : (ts.map (·.2)).Pairwise fun t u => u.Apart t) :
    ∃ m, attachTerminals connectable ts n = .ok () m ∧ Network.Rewired tight n m ∧
      ∀ vl node a, m.HoldsAt vl node a ↔
        n.HoldsAt vl node a ∨ ∃ side, (side, .atNode vl node) ∈ ts ∧ a = ⟨connectable, side⟩ := by
  induction ts generalizing n with
  | nil => exact ⟨n, rfl, .refl n, by simp⟩
  | cons x rest ih =>
    obtain ⟨side, vl, connection⟩ := x
    obtain ⟨hfirst, hrest⟩ := List.forall_mem_cons.mp hfree
    obtain ⟨hapart, hrests⟩ := List.pairwise_cons.mp hpair
    cases connection with
    | bus bus =>
      obtain ⟨m, hm, hr, hh⟩ := ih hn hrest hrests
      refine ⟨m, hm, hr, fun other node a => ?_⟩
      simp [hh, Terminal.atNode]
    | node node =>
      obtain ⟨w, w', k, hw, he, hk, hr, hh⟩ := attach_one hn hfirst ⟨connectable, side⟩
      have hfree' : ∀ y ∈ rest, k.Free y.2 := by
        intro y hy
        have hf := hrest y hy
        have ha := hapart y.2 (List.mem_map_of_mem hy)
        obtain ⟨s, v, c⟩ := y
        cases c with
        | bus b => exact hr.hasBus_iff.mpr hf
        | node j =>
          obtain ⟨u, hu, hj⟩ := hf
          obtain ⟨t, ht, hrew⟩ := hr.exists_inside hu
          cases hrew with
          | refl => exact ⟨u, ht, hj⟩
          | @wiring _ u' _ _ =>
            refine ⟨u', ht, fun hm => ?_⟩
            -- The node of `y` could only be taken by the side just attached.
            obtain ⟨b, hb⟩ := mem_iff_exists_getElem?.mp hm
            rcases (hh v j b).mp ⟨u', ht, hb⟩ with ⟨u'', hu'', hb'⟩ | ⟨rfl, rfl, -⟩
            · have heq : u = u'' := by simpa using hu.symm.trans hu''
              subst heq
              exact hj (mem_iff_exists_getElem?.mpr ⟨b, hb'⟩)
            · exact ha rfl rfl
      obtain ⟨m, hm, hr', hh'⟩ := ih (fun _ _ h => hr.firm_wiring hn h) hfree' hrests
      refine ⟨m, ?_, hr.trans hr', fun other j a => ?_⟩
      · simp only [attachTerminals, Terminal.node?, bind_apply, wiring_of_inside hw, he]
        subst hk
        exact hm
      · rw [hh', hh]
        simp only [List.mem_cons, Prod.mk.injEq, Terminal.atNode, Terminal.mk.injEq,
          Connection.node.injEq]
        grind

/-- Sides are detached from their nodes, whatever is there. -/
theorem detachTerminals_spec (hn : ∀ vl w, n.inside? vl = some (.nodeBreaker w) → w.Firm tight)
    {ts : List Terminal} (hin : ∀ vl node, .atNode vl node ∈ ts →
      ∃ w, n.inside? vl = some (.nodeBreaker w)) :
    ∃ m, detachTerminals ts n = .ok () m ∧ Network.Rewired tight n m ∧
      ∀ vl node a, m.HoldsAt vl node a ↔ n.HoldsAt vl node a ∧ .atNode vl node ∉ ts := by
  induction ts generalizing n with
  | nil => exact ⟨n, rfl, .refl n, by simp⟩
  | cons t rest ih =>
    obtain ⟨vl, connection⟩ := t
    cases connection with
    | bus bus =>
      obtain ⟨m, hm, hr, hh⟩ := ih hn fun v j hj => hin v j (List.mem_cons_of_mem _ hj)
      refine ⟨m, hm, hr, fun other node a => ?_⟩
      simp [hh, Terminal.atNode]
    | node node =>
      obtain ⟨w, hw⟩ := hin vl node List.mem_cons_self
      obtain ⟨hs, ht⟩ := hn vl w hw
      have hr : Network.Rewired tight n (n.setTopology vl (.nodeBreaker (w.detach node))) :=
        Network.rewired_setTopology hw
          (.wiring ⟨hs.detach node, fun h => Wiring.tight_detach hs.toLaid (ht h) node⟩
            (w.switches_detach node))
      obtain ⟨m, hm, hr', hh⟩ := ih (fun _ _ h => hr.firm_wiring hn h) (by
        intro v j hj
        obtain ⟨u, hu⟩ := hin v j (List.mem_cons_of_mem _ hj)
        obtain ⟨t, ht, hrew⟩ := hr.exists_inside hu
        cases hrew with
        | refl => exact ⟨u, ht⟩
        | wiring => exact ⟨_, ht⟩)
      refine ⟨m, ?_, hr.trans hr', fun other j a => ?_⟩
      · simp only [detachTerminals, Terminal.node?, bind_apply, wiring_of_inside hw]
        exact hm
      · rw [hh, Network.holdsAt_setTopology hw]
        split
        next ho =>
          have heq := ho
          subst heq
          have hold : n.HoldsAt vl j a ↔ w.terminals[j]? = some a := by
            simp [Network.HoldsAt, hw]
          rw [hold, Wiring.terminals_detach, ExtTreeMap.getElem?_erase]
          simp only [List.mem_cons, Terminal.atNode, Terminal.mk.injEq, Connection.node.injEq,
            Std.compare_eq_iff_eq]
          grind
        next ho =>
          simp only [List.mem_cons, Terminal.atNode, Terminal.mk.injEq, Connection.node.injEq]
          grind

end Switchyard.Edit
