import Switchyard.Proofs.WantedCopies
import Switchyard.Proofs.Unfailing

namespace Switchyard

open Std Network Run

variable {c : FeederConnection} {n m k : Network} {s t : Session} {naming : NamingStrategy}
  {vl base : String} {w u : Wiring} {a b : Node} {l l' : List (Node × Node)} {xs ys : List Switch}

def Switch.ends (s : Switch) : Node × Node :=
  (s.node1, s.node2)

namespace Network

/-- The node of the voltage level is in use. -/
def Refers (n : Network) (vl : String) (a : Node) : Prop :=
  ∃ w, n.inside? vl = some (.nodeBreaker w) ∧ w.Referenced a

/-- The second network has the switches besides, in order between the nodes given. -/
structure Copied (vl : String) (l : List (Node × Node)) (xs : List Switch) (n m : Network) :
    Prop where
  extended : Extended ∅ {x | x ∈ xs} ∅ n m
  ends : xs.map (·.ends) = l
  level : ∀ x ∈ xs, x.voltageLevel = vl

namespace Copied

theorem refl (hn : n.Coherent False) (vl : String) : Copied vl [] [] n n where
  extended := by simpa using Extended.refl hn
  ends := rfl
  level := by simp

theorem trans (h : Copied vl l xs n m) (h' : Copied vl l' ys m k) :
    Copied vl (l ++ l') (xs ++ ys) n k where
  extended := by
    have hset : {x | x ∈ xs ++ ys} = {x | x ∈ xs} ∪ {x | x ∈ ys} := by
      ext x
      simp
    rw [hset, ← Set.union_self (∅ : Set Connectable)]
    exact h.extended.trans h'.extended
  ends := by rw [List.map_append, h.ends, h'.ends]
  level := List.forall_mem_append.mpr ⟨h.level, h'.level⟩

theorem refers (h : Copied vl l xs n m) (ha : n.Refers vl a) : m.Refers vl a := by
  obtain ⟨w, hw, ha⟩ := ha
  obtain ⟨w', hw', hs, hs', hcarries⟩ := h.extended.toWired.of_wiring (Set.notMem_empty vl) hw
  exact ⟨w', hw', (hcarries.referenced_iff hs hs').mpr (Or.inl ha)⟩

theorem widened (h : Copied vl l xs n m) (hw : n.inside? vl = some (.nodeBreaker w))
    (hheld : ∀ x ∈ xs, ¬w.Plain x.node1) :
    ∃ u, m.inside? vl = some (.nodeBreaker u) ∧ w.Widened {x | x ∈ xs} u := by
  obtain ⟨u, hu, hs, hs', hcarries⟩ := h.extended.toWired.of_wiring (Set.notMem_empty vl) hw
  have hswitches : switchesAt {x | x ∈ xs} vl = {x | x ∈ xs} :=
    Set.ext fun x => ⟨fun hx => hx.1, fun hx => ⟨hx, h.level x hx⟩⟩
  have hterminals : terminalsAt (attachments ∅) vl = ∅ := by simp [terminalsAt]
  rw [hswitches, hterminals] at hcarries
  exact ⟨u, hu, hcarries.toCarries, hs, hs', hheld⟩

end Copied

end Network

namespace Run

theorem copied_copyRailSwitch (hs : s.network.Coherent False) {r : RailSwitch}
    (hok : copyRailSwitch naming vl base a b r s = .ok () t) :
    ∃ xs, Copied vl [(a, b)] xs s.network t.network := by
  have hcreate : ∃ kind id, createSwitch vl kind id a b true r.fictitious s = .ok () t := by
    simp only [copyRailSwitch, bind_eq_ok, network_eq_ok] at hok
    obtain ⟨_, _, ⟨rfl, rfl⟩, hok⟩ := hok
    split at hok
    · exact ⟨_, _, hok⟩
    · exact ⟨_, _, hok⟩
  obtain ⟨kind, id, hcreate⟩ := hcreate
  simp only [createSwitch, bind_eq_ok, edit_eq_ok, emit_eq_ok] at hcreate
  obtain ⟨given, _, ⟨k, hk, rfl⟩, rfl⟩ := hcreate
  have hone := (Extended.refl (X := ∅) hs).createSwitch hk
  rw [insert_empty_eq] at hone
  exact ⟨[_], ⟨by simpa using hone, rfl, by simp [SwitchDraft.switch]⟩⟩

/-- Copies go from the busbar section to the far ends, in order. -/
theorem copied_copyRailSwitches (hs : s.network.Coherent False)
    {copies : List (Node × RailSwitch)}
    (hok : copyRailSwitches naming vl base a copies s = .ok () t) :
    ∃ xs, Copied vl (copies.map fun p => (a, p.1)) xs s.network t.network := by
  induction copies generalizing s with
  | nil =>
    obtain ⟨-, rfl⟩ := pure_eq_ok.mp hok
    exact ⟨[], .refl hs vl⟩
  | cons p rest ih =>
    simp only [copyRailSwitches, bind_eq_ok] at hok
    obtain ⟨_, v, hfirst, hok⟩ := hok
    obtain ⟨xs, hxs⟩ := copied_copyRailSwitch hs hfirst
    obtain ⟨ys, hys⟩ := ih hxs.extended.coherent hok
    exact ⟨xs ++ ys, hxs.trans hys⟩

theorem sure_copyRailSwitch (ha : s.network.Refers vl a) (hne : a ≠ b) (r : RailSwitch) :
    (copyRailSwitch naming vl base a b r).Sure s := by
  obtain ⟨w, hw, -⟩ := ha
  exact Fails.network_bind (Fails.ite (fun _ => sure_createSwitch ⟨w, hw⟩ hne)
    fun _ => sure_createSwitch ⟨w, hw⟩ hne)

theorem sure_copyRailSwitches (hs : s.network.Coherent False) (ha : s.network.Refers vl a)
    {copies : List (Node × RailSwitch)}
    (hl : ∀ p ∈ copies, s.network.Refers vl p.1 ∧ a ≠ p.1) :
    (copyRailSwitches naming vl base a copies).Sure s := by
  induction copies generalizing s with
  | nil => exact fails_pure ()
  | cons p rest ih =>
    obtain ⟨hp, hrest⟩ := List.forall_mem_cons.mp hl
    refine (sure_copyRailSwitch ha hp.2 p.2).bind fun _ u hu => ?_
    obtain ⟨xs, hxs⟩ := copied_copyRailSwitch hs hu
    exact ih hxs.extended.coherent (hxs.refers ha)
      fun x hx => ⟨hxs.refers (hrest x hx).1, (hrest x hx).2⟩

end Run

namespace FeederConnection

theorem repeats_congr (h : m.busbarSections = n.busbarSections) : repeats m = repeats n := by
  funext target r
  unfold repeats isCoupling sectionIndex?
  rw [h]

/-- The ends of the copies to busbar sections. -/
def copies (n : Network) (toCopy : List (Node × RailSwitch)) (targets : List Rail) :
    List (Node × Node) :=
  targets.flatMap fun target =>
    (toCopy.filter (!repeats n target.id ·.2)).map fun p => (target.node, p.1)

theorem copied_connectTargets (hs : s.network.Coherent False) {toCopy : List (Node × RailSwitch)}
    {targets : List Rail} {count : Nat}
    (hok : connectTargets naming vl base toCopy targets s = .ok count t) :
    ∃ xs, Copied vl (copies s.network toCopy targets) xs s.network t.network := by
  induction targets generalizing s count with
  | nil =>
    obtain ⟨-, rfl⟩ := pure_eq_ok.mp hok
    exact ⟨[], .refl hs vl⟩
  | cons target rest ih =>
    simp only [connectTargets, bind_eq_ok, network_eq_ok, pure_eq_ok] at hok
    obtain ⟨_, _, ⟨rfl, rfl⟩, _, v, hfirst, more, _, hok, -, rfl⟩ := hok
    obtain ⟨xs, hxs⟩ := copied_copyRailSwitches hs hfirst
    obtain ⟨ys, hys⟩ := ih hxs.extended.coherent hok
    have hsame : copies v.network toCopy rest = copies s.network toCopy rest := by
      rw [copies, copies, repeats_congr hxs.extended.busbarSections_eq]
    rw [hsame] at hys
    exact ⟨xs ++ ys, by simpa [copies] using hxs.trans hys⟩

theorem sure_connectTargets (hs : s.network.Coherent False) {toCopy : List (Node × RailSwitch)}
    (hl : ∀ p ∈ toCopy, s.network.Refers vl p.1) {targets : List Rail}
    (htargets : ∀ r ∈ targets, s.network.Refers vl r.node)
    (hne : ∀ p ∈ toCopy, ∀ r ∈ targets, r.node ≠ p.1) :
    (connectTargets naming vl base toCopy targets).Sure s := by
  induction targets generalizing s with
  | nil => exact fails_pure 0
  | cons target rest ih =>
    obtain ⟨htarget, hrest⟩ := List.forall_mem_cons.mp htargets
    refine Fails.network_bind ((sure_copyRailSwitches hs htarget fun p hp => ?_).bind
      fun _ u hu => ?_)
    · have hp := List.mem_of_mem_filter hp
      exact ⟨hl p hp, hne p hp target List.mem_cons_self⟩
    · obtain ⟨xs, hxs⟩ := copied_copyRailSwitches hs hu
      exact Fails.bind (ih hxs.extended.coherent (fun p hp => hxs.refers (hl p hp))
        (fun r hr => hxs.refers (hrest r hr))
        fun p hp r hr => hne p hp r (List.mem_cons_of_mem _ hr)) fun _ _ _ => fails_pure _

end FeederConnection

end Switchyard
