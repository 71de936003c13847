import Switchyard.LineWork
import Switchyard.Proofs.Success

namespace Switchyard

namespace Run

/-- Steps that go through do the same to a network whatever was reported before. -/
def Blind {α : Type} (x : Run α) : Prop :=
  ∀ ⦃s t s' t' : Session⦄ ⦃a b : α⦄, s.network = t.network → x s = .ok a s' → x t = .ok b t' →
    a = b ∧ s'.network = t'.network

section

variable {α β : Type}

theorem Blind.pure (a : α) : Blind (pure a) := by
  intro s t s' t' b c h hs ht
  obtain ⟨rfl, rfl⟩ := pure_eq_ok.mp hs
  obtain ⟨rfl, rfl⟩ := pure_eq_ok.mp ht
  exact ⟨rfl, h⟩

theorem Blind.bind {x : Run α} {f : α → Run β} (hx : Blind x) (hf : ∀ a, Blind (f a)) :
    Blind (x >>= f) := by
  intro s t s' t' b c h hs ht
  obtain ⟨a, u, hxs, hfs⟩ := bind_eq_ok.mp hs
  obtain ⟨a', v, hxt, hft⟩ := bind_eq_ok.mp ht
  obtain ⟨rfl, huv⟩ := hx h hxs hxt
  exact hf a huv hfs hft

theorem Blind.network : Blind network := by
  intro s t s' t' n m h hs ht
  obtain ⟨rfl, rfl⟩ := network_eq_ok.mp hs
  obtain ⟨rfl, rfl⟩ := network_eq_ok.mp ht
  exact ⟨h, h⟩

theorem Blind.edit (change : Edit α) : Blind (edit change) := by
  intro s t s' t' a b h hs ht
  obtain ⟨n, hn, rfl⟩ := edit_eq_ok.mp hs
  obtain ⟨m, hm, rfl⟩ := edit_eq_ok.mp ht
  rw [h, hm] at hn
  cases hn
  exact ⟨rfl, rfl⟩

theorem Blind.lookUp (answer : Except Fault α) : Blind (lookUp answer) := by
  intro s t s' t' a b h hs ht
  obtain ⟨ha, rfl⟩ := lookUp_eq_ok.mp hs
  obtain ⟨hb, rfl⟩ := lookUp_eq_ok.mp ht
  exact ⟨Except.ok.inj (ha.symm.trans hb), h⟩

theorem Blind.emit (e : Event) : Blind (emit e) := by
  intro s t s' t' a b h hs ht
  cases emit_eq_ok.mp hs
  cases emit_eq_ok.mp ht
  exact ⟨rfl, h⟩

end

theorem blind_removeLines (ids : List String) : Blind (removeLines ids) := by
  induction ids with
  | nil => exact .pure ()
  | cons id rest ih => exact .bind (.bind (.edit _) fun _ => .emit _) fun _ => ih

theorem blind_cut (connectable voltageLevel : String) (cuts : List Cut) :
    Blind (cut connectable voltageLevel cuts) := by
  induction cuts with
  | nil => exact .pure ()
  | cons c rest ih =>
    cases c with
    | stopAt fork => exact .bind (.emit _) fun _ => ih
    | remove e =>
      obtain ⟨node1, node2, link⟩ := e
      cases link with
      | switch id => exact .bind (.edit _) fun _ => .bind (.emit _) fun _ => ih
      | connection => exact .bind (.edit _) fun _ => .bind (.emit _) fun _ => ih

theorem blind_pruneBays (connectable : String) (ts : List Terminal) :
    Blind (pruneBays connectable ts) := by
  induction ts with
  | nil => exact .pure ()
  | cons t rest ih =>
    rw [pruneBays]
    cases t.node? with
    | none => exact .bind (.pure ()) fun _ => ih
    | some node =>
      exact .bind (.bind .network fun _ => .bind (.lookUp _) fun _ => blind_cut _ _ _) fun _ => ih

theorem blind_pruneLeft (left : List (String × Terminal)) : Blind (pruneLeft left) := by
  induction left with
  | nil => exact .pure ()
  | cons x rest ih => exact .bind (blind_pruneBays _ _) fun _ => ih

end Run

end Switchyard
