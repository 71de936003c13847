import Mathlib.Data.Set.Image
import Switchyard.Modification
import Switchyard.Proofs.Likeness
import Switchyard.Proofs.LineCuts
import Switchyard.Proofs.LineTaps
import Switchyard.Proofs.TeeReplacements

namespace Switchyard

open Std Network

variable {n m : Network} {vl : String} {rail : Rail}

theorem Network.HasRail.twoBays_congr (hr : n.HasRail vl rail)
    (hsame : ∀ (id : String) (b : BusbarSection), b.voltageLevel = vl →
      (m.busbarSections[id]? = some b ↔ n.busbarSections[id]? = some b)) (first : Node) :
    m.twoBays vl rail first = n.twoBays vl rail first := by
  simp only [twoBays, bayPlan, hr.bayRails_congr hsame]

/-- The removal of the third line of a tee point, with the other two merged. -/
def TeeReplacement.removal (c : TeeReplacement) (merged : String) (name : Option String) :
    TapRemoval :=
  ⟨c.line1, c.line2, c.tap, merged, name⟩

/-- The cut of the merged line where the third one led to. -/
def TeeReplacement.cut (c : TeeReplacement) (merged : String) (percent : Float)
    (name1 name2 : Option String) : LineCut :=
  ⟨merged, c.target, percent, c.newLine1, name1, c.newLine2, name2⟩

/-- Where the lines of the tee point were removed on the way to something else, the
merged line comes to the same rest. -/
theorem TapRemoval.extended_merged (h : n.Coherent False) {c : TapRemoval} {a b tap : Branch}
    {tee : TeePoint} (ha : n.line? c.line1 = some a) (hb : n.line? c.line2 = some b)
    (htap : n.line? c.tap = some tap) (htee : teePoint? a b tap = some tee) {v t : Session}
    (hremove : Run.removeTee a b tap tee ⟨n, []⟩ = .ok () v) (hok : c.steps ⟨n, []⟩ = .ok () t) :
    Extended ∅ ∅ {.branch ((mergedLine n.serial c.merged c.mergedName a b tee.side1
        tee.side2).branch (a.terminal tee.side1.opposite) (b.terminal tee.side2.opposite)
        c.merged)}
      (v.network.cleared tee.voltageLevel) t.network := by
  obtain ⟨a', b', tap', tee', x, v', ha', hb', htap', htee', hx, hremove', hmerged⟩ :=
    TapRemoval.extended_cleared (s := ⟨n, []⟩) h hok
  cases ha.symm.trans ha'
  cases hb.symm.trans hb'
  cases htap.symm.trans htap'
  cases htee.symm.trans htee'
  obtain ⟨-, hsame⟩ := Run.blind_removeTee tee hx hremove' hremove
  exact hsame ▸ hmerged

/-- Both ways lay the same bays in what the removal of the lines leaves, and end
the new lines there. -/
theorem TeeReplacement.alike_of_steps (h : n.Coherent False) {c : TeeReplacement}
    {target : BusbarSection} (htarget : n.busbarSections[c.target]? = some target)
    {naming naming' : NamingStrategy} {merged : String} {percent : Float}
    {name name1 name2 : Option String} {r t u : Session}
    (hreplace : c.steps naming ⟨n, []⟩ = .ok () r)
    (hremove : (c.removal merged name).steps ⟨n, []⟩ = .ok () t)
    (hcut : (c.cut merged percent name1 name2).steps naming' ⟨t.network, []⟩ = .ok () u) :
    (r.network.line? c.newLine1).isSome ∧ (r.network.line? c.newLine2).isSome ∧
      Listing.Alike [c.newLine1, c.newLine2] r.network.listing u.network.listing := by
  obtain ⟨a, b, tap, tee, v, w, bays, ha, hb, htap, htee, hvl, hteeless, hkept, hw, hplans,
    hleft⟩ := extended_steps (s := ⟨n, []⟩) h htarget hreplace
  -- Both start with the removal of the same lines.
  have hmerged := TapRemoval.extended_merged h ha hb htap htee hteeless hremove
  obtain ⟨hside1, hside2, hside, -⟩ := teePoint_spec htee
  have hne : target.voltageLevel ≠ tee.voltageLevel := hvl ▸ Branch.endOf_opposite_ne hside
  have hbusbars : ∀ (id : String) (x : BusbarSection), x.voltageLevel = target.voltageLevel →
      ((v.network.cleared tee.voltageLevel).busbarSections[id]? = some x ↔
        v.network.busbarSections[id]? = some x) := by
    intro id x hx
    refine keeps_cleared (c := .busbarSection x) fun he => hne ?_
    exact hx.symm.trans (Option.some.inj he)
  have htarget' : t.network.busbarSections[c.target]? = some target := by
    rw [hmerged.busbarSections_eq]
    exact (hbusbars c.target target rfl).mpr hkept
  obtain ⟨-, hseats1, hseats2, -⟩ := Run.seats_of_removeTee (s := ⟨n, []⟩) h (h.keeps_line ha)
    (h.keeps_line hb) (h.keeps_line htap) htee hteeless
  obtain ⟨j, bays', ends, hj, hends, hhalves⟩ :=
    LineCut.extended_steps (s := ⟨t.network, []⟩) hmerged
      (seats_cleared (Branch.endOf_opposite_ne hside1) hseats1)
      (seats_cleared (Branch.endOf_opposite_ne hside2) hseats2) (hmerged.line?_new rfl rfl) hcut
  cases (hmerged.coherent.junction_of_busbarSection htarget').symm.trans hj
  cases hends with
  | @busbarSection _ _ _ _ w' hw' hr' hplans' =>
    rw [inside?_cleared hne, hw] at hw'
    cases hw'
    have hr : v.network.HasRail target.voltageLevel ⟨c.target, target.node⟩ :=
      ⟨target, hkept, rfl, rfl⟩
    rw [← hr.twoBays_congr hbusbars] at hplans
    have hfirst := hleft.line?_new (Or.inr rfl) rfl
    have hsecond := hleft.line?_new (Or.inl rfl) rfl
    rw [← Set.image_pair] at hleft hhalves
    refine ⟨?_, ?_, hleft.listing_alike hhalves ?_ ?_ ?_ hplans hplans'
      (hhalves.base.railed_twoBays hr' _) (apart_twoBays _ _ _ _)⟩
    · exact Option.isSome_of_mem hfirst
    · exact Option.isSome_of_mem hsecond
    · rintro _ (rfl | rfl)
      · exact ⟨_, Or.inl rfl, rfl, rfl, rfl, rfl⟩
      · exact ⟨_, Or.inr rfl, rfl, rfl, rfl, rfl⟩
    · rintro _ (rfl | rfl)
      · exact ⟨_, Or.inl rfl, rfl, rfl, rfl, rfl⟩
      · exact ⟨_, Or.inr rfl, rfl, rfl, rfl, rfl⟩
    · rintro _ (rfl | rfl)
      · exact List.mem_cons_of_mem _ List.mem_cons_self
      · exact List.mem_cons_self

namespace Modification

/-- Replacing a tee point does what removing the third line and cutting the merged
one does, but for the ids of switches and for what the new lines are like. -/
theorem alike_of_replaced (h : n.Coherent False) {c : TeeReplacement} {merged : String}
    {percent : Float} {name name1 name2 : Option String}
    {naming naming' naming'' : NamingStrategy} {strict strict' strict'' : Bool}
    (htarget : c.target ∈ n.busbarSections)
    (hreplace : ((teeReplacement c).apply n naming strict).Succeeds)
    (hremove : ((tapRemoval (c.removal merged name)).apply n naming' strict').Succeeds)
    (hcut : ((lineCut (c.cut merged percent name1 name2)).apply
      ((tapRemoval (c.removal merged name)).apply n naming' strict').network
      naming'' strict'').Succeeds) :
    (((teeReplacement c).apply n naming strict).network.line? c.newLine1).isSome ∧
      (((teeReplacement c).apply n naming strict).network.line? c.newLine2).isSome ∧
      Listing.Alike [c.newLine1, c.newLine2]
        ((teeReplacement c).apply n naming strict).network.listing
        ((lineCut (c.cut merged percent name1 name2)).apply
          ((tapRemoval (c.removal merged name)).apply n naming' strict').network
          naming'' strict'').network.listing := by
  obtain ⟨r, hreplace, hr⟩ := Run.ok_of_succeeds hreplace
  obtain ⟨t, hremove, ht⟩ := Run.ok_of_succeeds hremove
  obtain ⟨u, hcut, hu⟩ := Run.ok_of_succeeds hcut
  have hreplaced : ((teeReplacement c).apply n naming strict).network = r.network := hr
  have hremoved : ((tapRemoval (c.removal merged name)).apply n naming' strict').network =
    t.network := ht
  rw [hremoved] at hcut hu
  have hcuts : ((lineCut (c.cut merged percent name1 name2)).apply t.network naming''
    strict'').network = u.network := hu
  obtain ⟨target, htarget⟩ := mem_iff_exists_getElem?.mp htarget
  rw [hreplaced, hremoved, hcuts]
  exact TeeReplacement.alike_of_steps h htarget hreplace hremove hcut

/-- In every network that can come about, a tee point replaced and a tee point
removed before the merged line is cut come to the same. -/
theorem teeReplacement_agrees (id : String) (serial : Nat) (ops : List Operation)
    {c : TeeReplacement} {merged : String} {percent : Float} {name name1 name2 : Option String}
    {naming naming' naming'' : NamingStrategy} {strict strict' strict'' : Bool}
    (htarget : c.target ∈ ((empty id serial).after ops).busbarSections)
    (hreplace : ((teeReplacement c).apply ((empty id serial).after ops) naming strict).Succeeds)
    (hremove : ((tapRemoval (c.removal merged name)).apply ((empty id serial).after ops)
      naming' strict').Succeeds)
    (hcut : ((lineCut (c.cut merged percent name1 name2)).apply
      ((tapRemoval (c.removal merged name)).apply ((empty id serial).after ops)
        naming' strict').network naming'' strict'').Succeeds) :
    (((teeReplacement c).apply ((empty id serial).after ops) naming strict).network.line?
        c.newLine1).isSome ∧
      (((teeReplacement c).apply ((empty id serial).after ops) naming strict).network.line?
        c.newLine2).isSome ∧
      Listing.Alike [c.newLine1, c.newLine2]
        ((teeReplacement c).apply ((empty id serial).after ops) naming strict).network.listing
        ((lineCut (c.cut merged percent name1 name2)).apply
          ((tapRemoval (c.removal merged name)).apply ((empty id serial).after ops)
            naming' strict').network naming'' strict'').network.listing :=
  alike_of_replaced ((coherent_empty False id serial).after ops False.elim) htarget hreplace
    hremove hcut

/-- A line tapped from a busbar section. -/
def tappedLine : List Operation :=
  spannedLine ++ [.modification (.lineTap sectionTap) .standard true]

/-- The tap of a line, to be replaced where it leads to. -/
def tapReplacement : TeeReplacement where
  line1 := "L1"
  line2 := "L2"
  tap := "T"
  target := "B3"
  newLine1 := "N1"
  newLine1Name := none
  newLine2 := "N2"
  newLine2Name := none

theorem teeReplacement_agrees_tappedLine :
    (((teeReplacement tapReplacement).apply ((empty "N" 0).after tappedLine) .standard
        true).network.line? "N1").isSome ∧
      (((teeReplacement tapReplacement).apply ((empty "N" 0).after tappedLine) .standard
        true).network.line? "N2").isSome ∧
      Listing.Alike ["N1", "N2"]
        ((teeReplacement tapReplacement).apply ((empty "N" 0).after tappedLine) .standard
          true).network.listing
        ((lineCut (tapReplacement.cut "M" 50 none none)).apply
          ((tapRemoval (tapReplacement.removal "M" none)).apply ((empty "N" 0).after tappedLine)
            .standard true).network .standard true).network.listing :=
  teeReplacement_agrees "N" 0 tappedLine (by decide +kernel) (by decide +kernel)
    (by decide +kernel) (by decide +kernel)

end Modification

end Switchyard
