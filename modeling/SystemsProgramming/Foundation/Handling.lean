import SystemsProgramming.Foundation.Coroutine

/-! Programs over two memories side by side. A program over one of them leaves the other one alone, and
where it gives way a handler over the other one can stand in its place, which gives way as often as it
likes. The rules keep the two apart: what a program needs of its own memory is proved there. -/

namespace SystemsProgramming

variable {σ τ ι : Type*} {α : Type}

/-- A relation for each of the two memories. -/
def Both (R : σ → σ → Prop) (R' : τ → τ → Prop) (x y : σ × τ) : Prop := R x.1 y.1 ∧ R' x.2 y.2

namespace Code

/-- A program over the second memory. -/
def second : Code τ α → Code (σ × τ) α
  | ret a => ret a
  | stuck => stuck
  | get k => get fun x => (k x.2).second
  | put t k => get fun x => put (x.1, t) k.second
  | yield k => yield k.second

/-- A program over the first memory, with a handler over the second one where it gives way. -/
def handling : Code σ α → Code τ Unit → Code (σ × τ) α
  | ret a, _ => ret a
  | stuck, _ => stuck
  | get k, handler => get fun x => (k x.1).handling handler
  | put s k, handler => get fun x => put (s, x.2) (k.handling handler)
  | yield k, handler => handler.second.bind fun _ => k.handling handler

section
variable {R G : σ → σ → Prop} {R' G' : τ → τ → Prop} {Q : α → σ × τ → Prop} {s s₀ : σ} {t : τ}

/-- The others may have the first memory meanwhile. -/
theorem wp_second (hG : ∀ s, G s s) (htrans : ∀ s s' s'', R s s' → R s' s'' → R s s'') {c : Code τ α}
    {Q' : α → τ → Prop} (h : c.wp R' G' Q' t) (hs : R s₀ s)
    (hQ : ∀ a s t, R s₀ s → Q' a t → Q a (s, t)) : c.second.wp (Both R R') (Both G G') Q (s, t) := by
  induction c generalizing s t with
  | ret a => exact hQ a s t hs h
  | stuck => exact h.elim
  | get k ih => exact ih t h hs
  | put t' k ih => exact ⟨⟨hG s, h.1⟩, ih h.2 hs⟩
  | yield k ih =>
    rintro ⟨s', t'⟩ ⟨hss', htt'⟩
    exact ih (h t' htt') (htrans s₀ s s' hs hss')

/-- The handler keeps an assertion of its own, and it leaves to the program what the others leave. -/
theorem wp_handling (hG : ∀ s, G s s) (hG' : ∀ t, G' t t) (hrefl : ∀ s, R s s)
    (htrans : ∀ s s' s'', R s s' → R s' s'' → R s s'') {P : τ → Prop} {handler : Code τ Unit}
    (hhandler : ∀ t, P t → handler.wp R' G' (fun _ => P) t) {c : Code σ α} {Q' : α → σ → Prop}
    (h : c.wp R G Q' s) (ht : P t) (hQ : ∀ a s t, Q' a s → P t → Q a (s, t)) :
    (c.handling handler).wp (Both R R') (Both G G') Q (s, t) := by
  induction c generalizing s t with
  | ret a => exact hQ a s t h ht
  | stuck => exact h.elim
  | get k ih => exact ih s h ht
  | put s' k ih => exact ⟨⟨h.1, hG' t⟩, ih h.2 ht⟩
  | yield k ih =>
    refine wp_bind.mpr (wp_second hG htrans (hhandler t ht) (hrefl s) fun _ s' t' hs' ht' => ?_)
    exact ih (h s' hs') ht'

end

end Code

/-- Two teams of the same coroutines, each over its own memory. -/
theorem Compatible.both {R G : ι → σ → σ → Prop} {R' G' : ι → τ → τ → Prop} {Q : ι → α → σ → Prop}
    {Q' : ι → α → τ → Prop} (h : Compatible R G Q) (h' : Compatible R' G' Q') :
    Compatible (fun i => Both (R i) (R' i)) (fun i => Both (G i) (G' i))
      (fun i a x => Q i a x.1 ∧ Q' i a x.2) where
  guarantee i j hne _ _ hxy := ⟨h.guarantee i j hne _ _ hxy.1, h'.guarantee i j hne _ _ hxy.2⟩
  refl i _ := ⟨h.refl i _, h'.refl i _⟩
  trans i _ _ _ hxy hyz := ⟨h.trans i _ _ _ hxy.1 hyz.1, h'.trans i _ _ _ hxy.2 hyz.2⟩
  post i a _ _ hQ hxy := ⟨h.post i a _ _ hQ.1 hxy.1, h'.post i a _ _ hQ.2 hxy.2⟩

end SystemsProgramming
