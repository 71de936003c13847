import Switchyard.Proofs.FeederSteps
import Switchyard.Proofs.Listings
import Switchyard.Proofs.Unfailing

namespace Switchyard

open Std Network Run

variable {A : Change → Prop} {n : Network} {s t : Session} {bays : List LaidBay} {c : Connectable}
  {vl id : String} {node : Node}

namespace FeederBays

theorem makes_findSides (given : List (Side × FeederBay)) : Makes A (findSides given) s := by
  induction given generalizing s with
  | nil => exact makes_pure []
  | cons g rest ih =>
    obtain ⟨side, bay⟩ := g
    have htail : ∀ j t, Makes A
        (findSides rest >>= fun sides => pure (⟨side, bay, j⟩ :: sides)) t :=
      fun j t => ih.bind fun sides u => makes_pure _
    refine (makes_junction bay.target).bind fun j t => ?_
    dsimp only
    split
    · exact (makes_emit _).bind fun _ _ => htail _ _
    · exact (makes_refuse _).bind fun _ _ => htail _ _
    · exact Makes.ite (fun _ => (makes_refuse _).bind fun _ _ => htail _ _)
        fun _ => htail _ _
    · exact htail _ _

theorem makes_checkOrder (force : Bool) (busbarSection voltageLevel : String)
    (order : FeederOrder) : Makes A (checkOrder force busbarSection voltageLevel order) s := by
  refine Makes.network_bind ((makes_lookUp _).bind fun found t => ?_)
  cases found with
  | none => exact makes_pure true
  | some f =>
    exact Makes.ite (fun _ => makes_refuse f) fun _ =>
      (makes_emit _).bind fun _ _ => makes_pure false

theorem makes_chooseTerminals (force : Bool) (taken : ExtTreeMap String Node)
    (d : ConnectableDraft) (sides : List BaySide) :
    Makes A (chooseTerminals force taken d sides) s := by
  induction sides generalizing taken d s with
  | nil => exact makes_pure _
  | cons x rest ih =>
    have htail : ∀ ranked taken term t, Makes A
        (chooseTerminals force taken (d.attach x.side term) rest >>= fun r =>
          pure (r.1, (⟨x, ranked⟩ : RankedSide) :: r.2)) t :=
      fun ranked taken term t => (ih taken _).bind fun _ _ => makes_pure _
    rw [chooseTerminals]
    cases x.junction with
    | bus id vl => exact htail false _ _ s
    | busbarSection id vl node =>
      have hplace : ∀ number t, Makes A (do
          let ranked ←
            if ((← network).sectionIndex? id).isSome then
              checkOrder force id vl (x.bay.order.getD 0)
            else pure false
          let r ← chooseTerminals force (taken.insert vl number)
            (d.attach x.side (.atNode vl number)) rest
          pure (r.1, (⟨x, ranked⟩ : RankedSide) :: r.2)) t := by
        intro number t
        refine Makes.network_bind (Makes.ite (fun _ => ?_) fun _ => htail false _ _ t)
        exact (makes_checkOrder force id vl _).bind fun ranked u => htail ranked _ _ u
      dsimp only
      split
      next last _ => exact hplace (last + 1) s
      next => exact (makes_nextNode vl).bind fun number t => hplace number t

theorem sure_createBay (h : Extended ∅ (laid bays) {c} n s.network)
    (hr : n.HasRail vl ⟨id, node⟩) {r : RankedSide} {number : Node}
    (ht : c.terminal? r.side = some (.atNode vl number)) {more : Nat}
    (hroom : s.network.Room vl (more + 1)) {naming : NamingStrategy} {sided : Bool} :
    (createBay naming c.id sided r id vl node).Sure s := by
  have hkept : s.network.Keeps c.id c := h.keeps_new rfl
  have hrail : s.network.HasRail vl ⟨id, node⟩ := h.hasRail_iff.mpr hr
  obtain ⟨w, hw⟩ := hrail.wiring h.coherent
  have hnew : s.network.Unplaced vl w.nextNode := hroom.unplaced_nextNode hw
  have hne : number ≠ w.nextNode :=
    hnew.ne_of_attached h.coherent hkept (Connectable.terminal?_eq_some_iff.mp ht)
  refine Fails.network_bind ?_
  rw [h.node?_new ht]
  refine Fails.note fun u hu => ?_
  refine (sure_baySections vl id node).bind fun rails u' hrails => ?_
  obtain ⟨rfl, rfl⟩ := baySections_eq_ok.mp hrails
  refine Fails.note fun v hv => ?_
  rw [hu] at hv
  refine (sure_nextNode (hv ▸ hw)).bind fun fork v' hfork => ?_
  obtain ⟨w', hw', rfl, rfl⟩ := nextNode_eq_ok.mp hfork
  cases hw.symm.trans (hv ▸ hw')
  refine (Run.sure_createBay (hv ▸ h.coherent) ⟨w, hv ▸ hw⟩ hne fun x hx => ?_).bind
    fun _ _ _ => Fails.emit_bind (fails_pure _)
  rw [hu] at hx
  exact h.coherent.ne_rail_of_unplaced hnew (h.coherent.mem_bayRails hrail hx)

theorem sure_createBays {before after : List (Side × Terminal)} {sides : List RankedSide}
    (h : Progress n s.network c bays before) (hsides : Awaits n c before after sides)
    (hroom : n.HasRoomFor c) {naming : NamingStrategy} {sided : Bool} {position : FeederPosition} :
    (createBays naming c.id sided position sides).Sure s := by
  induction sides generalizing bays before after position s with
  | nil => exact fails_pure position
  | cons r rest ih =>
    obtain ⟨u, later, rfl, hu, hadmit, hjunction, hlater⟩ := hsides.next
    rw [createBays]
    cases hj : r.junction with
    | bus id vl =>
      rw [hj] at hadmit
      cases hadmit
      exact Fails.emit_bind (ih (s := s.tell _) h.bus hlater)
    | busbarSection id vl node =>
      rw [hj] at hadmit hjunction
      obtain ⟨number, rfl, hupcoming⟩ := hadmit
      have hr := h.extended.base.hasRail_of_junction hjunction
      have hat := Connectable.terminal?_eq_some_iff.mp hu
      have hleft : s.network.Room vl (later.length + 1) := by
        simpa [hsides.terminals_eq] using h.room hroom _ _ _ hat
      refine (sure_createBay h.extended hr hu hleft).bind fun feeder w hbay => ?_
      obtain ⟨b, -, -, hnext⟩ := createBay_next h hsides.terminals_eq hupcoming hr hbay
      cases feeder with
      | none => exact ih hnext hlater
      | some feeder => exact ih hnext hlater

/-- Equipment that cannot be created with its bays leaves everything as it was.
Once the equipment is there only its owner can be wrong, and then it is removed. -/
theorem restores_steps {m : FeederBays} (hlen : m.bays.length = m.draft.sides.length)
    (h : s.network.Coherent False) (hroom : m.HasRoom s.network) (naming : NamingStrategy) :
    (m.steps naming).Fails s fun _ t => Extended ∅ ∅ ∅ s.network t.network := by
  have hrestored : ∀ {u : Session}, u.network = s.network →
      Extended ∅ ∅ ∅ s.network u.network := fun hu => hu.symm ▸ Extended.refl h
  have hfinds : Makes (fun _ => False) (findSides (m.draft.sides.zip m.bays)) s :=
    makes_findSides _
  refine Fails.bind ((hfinds.spares h).mono fun _ t ht => hrestored ht) fun found s1 hfind => ?_
  have hs1 : s1.network = s.network := (hfinds.ok h hfind).eq_of_none
  have hchooses : Makes (fun _ => False) (chooseTerminals m.force ∅ m.draft found) s1 :=
    makes_chooseTerminals _ _ _ _
  refine Fails.bind ((hchooses.spares (hs1 ▸ h)).mono fun _ t ht => hrestored (ht.trans hs1))
    fun r s2 hchoose => ?_
  obtain ⟨d, sides⟩ := r
  obtain ⟨hs2, -, hready⟩ := ready_of_ok hlen h hfind hchoose
  have hrefl : Extended ∅ ∅ ∅ s.network s2.network := hrestored hs2
  have hatomic : d.create.Atomic False s2.network :=
    (d.create_cases hrefl.coherent).imp_left fun ⟨x, k, _, hok, hg, _⟩ => ⟨x, k, hok, hg.coherent⟩
  refine Fails.bind ((spares_edit hatomic).mono fun _ t ht => hrestored (ht.trans hs2))
    fun id s3 henter => ?_
  obtain ⟨k, hcreate, rfl⟩ := edit_eq_ok.mp henter
  obtain ⟨c, rfl, hposition, hsides, hterminals, hentered⟩ :=
    ConnectableDraft.extended_create hrefl hcreate
  rw [insert_empty_eq] at hentered
  have hawaits := hready.awaits hsides hterminals
  have hroom := hready.hasRoomFor hlen h hawaits hroom
  refine Fails.network_bind (Fails.ite (fun _ => ?_) fun _ => Fails.emit_bind ?_)
  · obtain ⟨-, k', -, hremove, -⟩ | ⟨hno, -⟩ :=
      Edit.removeConnectable_cases hentered.coherent c.id
    · have hleft := hentered.removeConnectable rfl (hawaits.seats hroom) hremove
      rw [Set.sdiff_self] at hleft
      refine (sure_edit hremove).fails.bind fun _ s4 hs4 => ?_
      obtain ⟨_, hagain, rfl⟩ := edit_eq_ok.mp hs4
      cases hremove.symm.trans hagain
      exact Fails.bind (fails_refuse hleft) fun _ _ hr => (refuse_eq_ok.mp hr).elim
    · exact absurd (hentered.keeps_new rfl) (hno c)
  · have hstart : Progress s.network k c [] [] := hawaits.start hentered
    refine (sure_createBays (s := Session.tell ⟨k, s2.events⟩ _) hstart hawaits hroom).fails.bind
      fun position s5 hbays => ?_
    obtain ⟨⟨bays, ⟨hlaid, -, -, -⟩, -⟩, -⟩ :=
      progress_createBays (s := Session.tell ⟨k, s2.events⟩ _) hstart hawaits hposition
        (fun _ _ => FeederPosition.feeder_empty _) hbays
    refine Fails.ite (fun _ => ?_) fun _ => fails_pure ()
    obtain ⟨-, k', -, hplace, -⟩ | ⟨hno, -⟩ :=
      Edit.setFeederPosition_cases hlaid.coherent c.id (some position)
    · exact (sure_edit hplace).fails
    · exact absurd (hlaid.free c rfl) (hno c (hlaid.keeps_new rfl))

end FeederBays

end Switchyard
