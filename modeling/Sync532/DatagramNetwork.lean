import Mathlib.Data.List.Flatten
import Mathlib.Tactic

/-! One sender, a network and one receiver. Messages are sent in order; the network may
lose, reorder or duplicate what is in flight, as far as it is allowed to. -/
namespace Sync532
variable {α : Type*}

structure Faults where
  lose : Bool
  reorder : Bool
  duplicate : Bool

/-- The messages that are still to be sent, those in flight, and those received, in order. -/
structure Channel (α : Type*) where
  unsent : List α
  flight : List α
  received : List α

def Channel.start (sent : List α) : Channel α := ⟨sent, [], []⟩

/-- All messages of the state, from the oldest one on. -/
def Channel.all (c : Channel α) : List α := c.received ++ c.flight ++ c.unsent

inductive Channel.Step (f : Faults) : Channel α → Channel α → Prop
  | send {m : α} {unsent flight received : List α} :
      Step f ⟨m :: unsent, flight, received⟩ ⟨unsent, flight ++ [m], received⟩
  | deliver (pre : List α) {m : α} {unsent post received : List α}
    (h : pre = [] ∨ f.reorder = true) :
      Step f ⟨unsent, pre ++ m :: post, received⟩ ⟨unsent, pre ++ post, received ++ [m]⟩
  | lose (pre : List α) {m : α} {unsent post received : List α} (h : f.lose = true) :
      Step f ⟨unsent, pre ++ m :: post, received⟩ ⟨unsent, pre ++ post, received⟩
  | duplicate (pre : List α) {m : α} {unsent post received : List α} (h : f.duplicate = true) :
      Step f ⟨unsent, pre ++ m :: post, received⟩ ⟨unsent, pre ++ m :: m :: post, received⟩

/-- Every order of steps. -/
def Channel.Reaches (f : Faults) (sent : List α) (c : Channel α) : Prop :=
  Relation.ReflTransGen (Channel.Step f) (Channel.start sent) c

namespace Channel
variable {f : Faults} {sent : List α} {c : Channel α}

/-- What every step keeps holds in every state that is reached. -/
theorem Reaches.invariant {P : Channel α → Prop} (h : Reaches f sent c) (hstart : P (start sent))
    (hstep : ∀ c c', Step f c c' → P c → P c') : P c := by
  induction h with
  | refl => exact hstart
  | tail _ hlast ih => exact hstep _ _ hlast ih

/-- Nothing is received that was not sent. -/
theorem Reaches.mem (h : Reaches f sent c) : ∀ m ∈ c.received, m ∈ sent := by
  have hall : ∀ m ∈ c.all, m ∈ sent := by
    apply h.invariant
    · intro m hm
      simpa [all, start] using hm
    · intro c c' hstep hc m hm
      apply hc
      cases hstep <;> simp only [all, List.mem_append, List.mem_cons] at hm ⊢ <;>
        tauto
  intro m hm
  apply hall
  exact List.mem_append_left _ (List.mem_append_left _ hm)

/-- Without reordering and duplicates, what is received is what was sent with gaps. -/
theorem Reaches.sublist (h : Reaches f sent c) (horder : f.reorder = false)
    (honce : f.duplicate = false) : List.Sublist c.received sent := by
  have hall : List.Sublist c.all sent := by
    apply h.invariant
    · exact List.Sublist.refl _
    · intro c c' hstep hc
      cases hstep with
      | send => simpa [all] using hc
      | deliver pre hfirst =>
        rw [horder] at hfirst
        obtain rfl := hfirst.resolve_right (by decide)
        simpa [all] using hc
      | lose pre _ =>
        -- one message less
        refine List.Sublist.trans ?_ hc
        simp [all]
      | duplicate pre hdup => exact absurd (honce.symm.trans hdup) (by decide)
  refine List.Sublist.trans ?_ hall
  rw [all, List.append_assoc]
  exact List.sublist_append_left _ _

/-- Without losses too, nothing is missing in between. -/
theorem Reaches.complete (h : Reaches f sent c) (hkeep : f.lose = false)
    (horder : f.reorder = false) (honce : f.duplicate = false) : c.all = sent := by
  apply h.invariant
  · rfl
  · intro c c' hstep hc
    cases hstep with
    | send => simpa [all] using hc
    | deliver pre hfirst =>
      rw [horder] at hfirst
      obtain rfl := hfirst.resolve_right (by decide)
      simpa [all] using hc
    | lose pre hlost => exact absurd (hkeep.symm.trans hlost) (by decide)
    | duplicate pre hdup => exact absurd (honce.symm.trans hdup) (by decide)

/-- A network that loses messages can deliver any part of them that keeps their order. -/
theorem reaches_sublist (hlose : f.lose = true) {l : List α} (h : List.Sublist l sent) :
    Reaches f sent ⟨[], [], l⟩ := by
  have hrun : ∀ l' : List α,
      Relation.ReflTransGen (Step f) ⟨sent, [], l'⟩ ⟨[], [], l' ++ l⟩ := by
    induction h with
    | slnil =>
      intro l'
      rw [List.append_nil]
    | cons m _ ih =>
      intro l'
      refine Relation.ReflTransGen.head Step.send ?_
      exact Relation.ReflTransGen.head (Step.lose [] hlose) (ih l')
    | cons_cons m _ ih =>
      intro l'
      have hrest := ih (l' ++ [m])
      rw [List.append_assoc, List.singleton_append] at hrest
      refine Relation.ReflTransGen.head Step.send ?_
      exact Relation.ReflTransGen.head (Step.deliver [] (Or.inl rfl)) hrest
  exact hrun []

end Channel

/-- The entries up to the first one with `p`, which is the last one taken. -/
def upTo (p : α → Bool) : List α → List α
  | [] => []
  | x :: xs => if p x then [x] else x :: upTo p xs

theorem upTo_isPrefix (p : α → Bool) (l : List α) : upTo p l <+: l := by
  induction l with
  | nil => exact List.prefix_rfl
  | cons x xs ih =>
    unfold upTo
    split_ifs
    · exact ⟨xs, rfl⟩
    · exact (List.prefix_cons_inj x).mpr ih

theorem upTo_of_none {p : α → Bool} {l : List α} (hl : ∀ y ∈ l, p y = false) :
    upTo p l = l := by
  induction l with
  | nil => rfl
  | cons y l ih =>
    obtain ⟨hy, hrest⟩ := List.forall_mem_cons.mp hl
    rw [upTo, hy, if_neg (by decide), ih hrest]

theorem upTo_of_last {p : α → Bool} {l : List α} {x : α} (hx : p x = true)
    (hl : ∀ y ∈ l, p y = false) : upTo p (l ++ [x]) = l ++ [x] := by
  induction l with
  | nil => simp [upTo, hx]
  | cons y l ih =>
    obtain ⟨hy, hrest⟩ := List.forall_mem_cons.mp hl
    rw [List.cons_append, upTo, hy, if_neg (by decide), ih hrest]

/-- A part of a list of non-empty lists with as many elements in total is all of it. -/
theorem eq_of_sublist_of_flatten {ι : Type*} {g : ι → List α} {l l' : List ι}
    (h : List.Sublist l l') (hne : ∀ x ∈ l', g x ≠ [])
    (hlen : (l'.flatMap g).length ≤ (l.flatMap g).length) : l = l' := by
  induction h with
  | slnil => rfl
  | cons x hsub ih =>
    obtain ⟨hx, hrest⟩ := List.forall_mem_cons.mp hne
    have hle := (hsub.flatMap g).length_le
    have hpos := List.length_pos_of_ne_nil hx
    rw [List.flatMap_cons, List.length_append] at hlen
    omega
  | cons_cons x hsub ih =>
    obtain ⟨-, hrest⟩ := List.forall_mem_cons.mp hne
    rw [List.flatMap_cons, List.flatMap_cons, List.length_append, List.length_append] at hlen
    rw [ih hrest (by omega)]

end Sync532
