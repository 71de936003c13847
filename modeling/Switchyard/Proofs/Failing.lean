import Switchyard.Proofs.LineSteps

namespace Switchyard

/-- An error that is reported tells the fault. -/
def Outcome.Reports (o : Outcome) (f : Fault) : Prop :=
  .refused f ∈ o.events ∨ .failed f ∈ o.events

namespace Run

variable {tight : Prop} {doomed : String → Prop} {α β : Type} {s t : Session} {n : Network}

/-- Each fault that can end the run is as told, with the session that it leaves. -/
def Fails (r : Run α) (s : Session) (p : Fault → Session → Prop) : Prop :=
  ∀ f t, r s = .error f t → p f t

/-- A fault that ends the run leaves the network as it was. -/
abbrev Spares (r : Run α) (s : Session) : Prop :=
  r.Fails s fun _ t => t.network = s.network

/-- No fault can end the run. -/
abbrev Sure (r : Run α) (s : Session) : Prop :=
  r.Fails s fun _ _ => False

variable {x : Run α} {k : α → Run β} {p q : Fault → Session → Prop}

theorem Fails.mono (h : x.Fails s p) (hpq : ∀ f t, p f t → q f t) : x.Fails s q :=
  fun f t hr => hpq f t (h f t hr)

theorem Sure.fails (h : x.Sure s) : x.Fails s p :=
  h.mono fun _ _ => False.elim

theorem sure_of_ok {a : α} (h : x s = .ok a t) : x.Sure s := by
  intro f u hr
  cases h.symm.trans hr

theorem Smooth.sure {post : α → Session → Prop} (h : Smooth tight doomed x s post)
    (hs : s.network.Coherent tight) : x.Sure s := by
  obtain ⟨a, t, hr, -⟩ := h hs
  exact sure_of_ok hr

theorem fails_pure (a : α) : (pure a : Run α).Fails s p := by
  intro f t hr
  cases hr

theorem fails_emit (e : Event) : (emit e).Fails s p := by
  intro f t hr
  cases hr

theorem fails_throw {f : Fault} (h : p f s) : (throw f : Run α).Fails s p := by
  intro g t hr
  cases hr
  exact h

theorem fails_refuse {f : Fault} (h : p f (s.tell (.refused f))) :
    (refuse f : Run α).Fails s p := by
  intro g t hr
  cases hr
  exact h

theorem spares_refuse (f : Fault) : (refuse f : Run α).Spares s :=
  fails_refuse rfl

theorem Fails.bind (hx : x.Fails s p) (hk : ∀ a t, x s = .ok a t → (k a).Fails t p) :
    (x >>= k).Fails s p := by
  intro f u hr
  rw [bind_apply] at hr
  cases hx' : x s with
  | ok a t =>
    rw [hx'] at hr
    exact hk a t hx' f u hr
  | error g t =>
    rw [hx'] at hr
    cases hr
    exact hx f u hx'

/-- A first part that leaves no trace can fail where the rest may leave one. -/
theorem Spares.or_bind (hx : x.Spares s) {c : Fault → Prop}
    (hk : ∀ a t, x s = .ok a t → (k a).Fails t fun f u => u.network = s.network ∨ c f) :
    (x >>= k).Fails s fun f u => u.network = s.network ∨ c f :=
  Fails.bind (hx.mono fun _ _ => Or.inl) hk

theorem Fails.network_bind {k : Network → Run β} (h : (k s.network).Fails s p) :
    (network >>= k).Fails s p :=
  h

theorem Fails.emit_bind {e : Event} {k : Unit → Run β} (h : (k ()).Fails (s.tell e) p) :
    (Run.emit e >>= k).Fails s p :=
  h

theorem Fails.ite {c : Prop} [Decidable c] {y : Run α} (hx : c → x.Fails s p)
    (hy : ¬c → y.Fails s p) : (if c then x else y).Fails s p := by
  split
  · exact hx ‹_›
  · exact hy ‹_›

/-- What follows a note starts from the same network. -/
theorem Fails.note {c : Prop} [Decidable c] {e : Event} {k : Unit → Run β}
    (h : ∀ t, t.network = s.network → (k ()).Fails t p) :
    (if c then Run.emit e >>= k else k ()).Fails s p :=
  Fails.ite (fun _ => Fails.emit_bind (h _ rfl)) fun _ => h s rfl

theorem Fails.check_bind {c : Prop} [Decidable c] {f : Fault} {k : Unit → Run β}
    (h : p f (s.tell (.refused f))) (hk : ¬c → (k ()).Fails s p) :
    (if c then refuse f >>= k else k ()).Fails s p :=
  Fails.ite (fun _ => (fails_refuse h).bind fun _ _ hr => (refuse_eq_ok.mp hr).elim) hk

theorem fails_edit {change : Edit α}
    (h : ∀ f m, change s.network = .error f m → p f { s with network := m }) :
    (edit change).Fails s p := by
  intro f t hr
  unfold edit at hr
  cases hc : change s.network with
  | ok a m =>
    rw [hc] at hr
    cases hr
  | error g m =>
    rw [hc] at hr
    cases hr
    exact h f m hc

/-- A change that is made as a whole or refused leaves no trace of a fault. -/
theorem spares_edit {change : Edit α} (h : change.Atomic tight s.network) :
    (edit change).Spares s := by
  refine fails_edit fun f m hr => ?_
  obtain ⟨a, k, hok, -⟩ | ⟨g, hrefused, -⟩ := h
  · cases hok.symm.trans hr
  · cases hrefused.symm.trans hr
    rfl

theorem sure_edit {change : Edit α} {a : α} {m : Network} (h : change s.network = .ok a m) :
    (edit change).Sure s :=
  sure_of_ok (edit_eq_ok.mpr ⟨m, h, rfl⟩)

theorem spares_line (id : String) : (line id).Spares s := by
  refine Fails.network_bind ?_
  cases s.network.line? id with
  | none => exact spares_refuse _
  | some b => exact fails_pure b

theorem spares_junction (id : String) : (junction id).Spares s := by
  refine Fails.network_bind ?_
  cases s.network.junction id with
  | error f => exact spares_refuse f
  | ok j => exact fails_pure j

theorem spares_checkPercent (percent : Float) : (checkPercent percent).Spares s :=
  Fails.ite (fun _ => spares_refuse _) fun _ => fails_pure ()

theorem spares_checkNewIds (replaced earlier ids : List String) :
    (checkNewIds replaced earlier ids).Spares s := by
  induction ids generalizing earlier with
  | nil => exact fails_pure ()
  | cons id rest ih => exact Fails.network_bind (Fails.check_bind rfl fun _ => ih (id :: earlier))

theorem sure_warnOfLostLimits (b : Branch) (side : Side) : (warnOfLostLimits b side).Sure s :=
  Fails.ite (fun _ => fails_emit _) fun _ => fails_pure ()

theorem sure_nextNode {vl : String} {w : Wiring}
    (hw : s.network.inside? vl = some (.nodeBreaker w)) : (nextNode vl).Sure s :=
  sure_of_ok (nextNode_eq_ok.mpr ⟨w, hw, rfl, rfl⟩)

theorem sure_baySections (vl id : String) (node : Node) : (baySections vl id node).Sure s :=
  sure_of_ok (baySections_eq_ok.mpr ⟨rfl, rfl⟩)

/-- What does not succeed ends with a fault of its steps, which is reported. -/
theorem Traced.error_of_not_succeeds {steps : Run Unit} {post : Unit → Session → Prop}
    (h : Traced tight doomed steps ⟨n, []⟩ post) (hn : n.Coherent tight) {strict : Bool}
    (hfail : ¬((steps.finish strict).outcome n).Succeeds) :
    ∃ f t, steps ⟨n, []⟩ = .error f t ∧
      ((steps.finish strict).outcome n).network = t.network ∧
      ((steps.finish strict).outcome n).Reports f := by
  cases hr : steps ⟨n, []⟩ with
  | ok a t =>
    have hrun := h hn
    rw [hr] at hrun
    obtain ⟨more, hevents, hquiet⟩ := hrun.1.events
    have hout : (steps.finish strict).outcome n = ⟨t.network, t.events, none⟩ := by
      simp only [outcome, finish, hr]
    have hquiet : ∀ e ∈ t.events, e.isError = false := by
      rw [hevents, List.nil_append]
      exact hquiet
    exact absurd (hout ▸ ⟨rfl, hquiet⟩) hfail
  | error f t =>
    obtain ⟨-, e, u, he, -, hnetwork, hsettle⟩ := h.settle_of_error hn (by simp) hr
    have hout : ((steps.finish strict).outcome n).network = u.network ∧
        ((steps.finish strict).outcome n).events = u.events ++ [e] := by
      cases strict <;> simp only [outcome, finish, hr, hsettle] <;> exact ⟨rfl, rfl⟩
    refine ⟨f, t, rfl, hout.1.trans hnetwork.symm, ?_⟩
    rw [Outcome.Reports, hout.2]
    exact he.imp (fun h => by simp [h]) fun h => by simp [h]

theorem Traced.succeeds_of_sure {steps : Run Unit} {post : Unit → Session → Prop}
    (h : Traced tight doomed steps ⟨n, []⟩ post) (hn : n.Coherent tight)
    (hsure : steps.Sure ⟨n, []⟩) (strict : Bool) :
    ((steps.finish strict).outcome n).Succeeds := by
  by_contra hfail
  obtain ⟨f, t, hr, -⟩ := h.error_of_not_succeeds hn hfail
  exact hsure f t hr

end Run

end Switchyard
