import Mathlib.Data.List.Nodup
import Mathlib.Data.List.Infix

/-!
# Library — serial services and what their callers see

A service answers one request after the other and keeps a state between them.  Its callers make
calls and get answers concurrently.  The calls are linearizable when some serial order of them
gives every caller the answer it got, and puts a call that returned before another was made first.

* `Serves` — the answers of requests served one after the other.
* `Linearizes` — a serial order that explains a history.
* `Linearizes.invoke`, `Linearizes.serveNext`, `Linearizes.reply` — an order grows with the history:
  by a new call, a request served and an answer returned.
-/

namespace Service

variable {Q σ A : Type}

/-- What callers see: a call with its request, and the answer it returned. -/
inductive Event (Q A : Type) where
  | invoked (call : Nat) (request : Q)
  | returned (call : Nat) (answer : A)

/-- A request that was served, with the call that made it and its answer. -/
structure Served (Q A : Type) where
  call : Nat
  request : Q
  answer : A

/-- Requests served one after the other from `s₀`, and the state they lead to. -/
inductive Serves (serve : Q → σ → A × σ) (s₀ : σ) : List (Served Q A) → σ → Prop
  | nil : Serves serve s₀ [] s₀
  | snoc {order : List (Served Q A)} {s : σ} (h : Serves serve s₀ order s) (call : Nat)
      (request : Q) :
      Serves serve s₀ (order ++ [⟨call, request, (serve request s).1⟩]) (serve request s).2

variable {serve : Q → σ → A × σ} {s₀ s s' : σ} {order : List (Served Q A)}

/-- Every answer was given in some state. -/
theorem Serves.answered (h : Serves serve s₀ order s) :
    ∀ x ∈ order, ∃ t, x.answer = (serve x.request t).1 := by
  induction h with
  | nil => simp
  | @snoc order t h call request ih =>
      intro x hx
      rcases List.mem_append.mp hx with hx | hx
      · exact ih x hx
      · obtain rfl := List.mem_singleton.mp hx
        exact ⟨t, rfl⟩

/-- The calls of an order. -/
def callsOf (order : List (Served Q A)) : List Nat := order.map Served.call

theorem callsOf_append (order order' : List (Served Q A)) :
    callsOf (order ++ order') = callsOf order ++ callsOf order' := List.map_append

theorem mem_callsOf {x : Served Q A} (h : x ∈ order) : x.call ∈ callsOf order :=
  List.mem_map_of_mem h

/-- A serial order that explains a history: it is served in this order, every call at most once
and only after it was made; what a call returned is its answer in the order; and wherever a call
is in the order, those that returned before it was made are in front of it. -/
structure Linearizes (serve : Q → σ → A × σ) (s₀ : σ) (history : List (Event Q A))
    (order : List (Served Q A)) : Prop where
  serial : ∃ s, Serves serve s₀ order s
  once : (callsOf order).Nodup
  invoked : ∀ x ∈ order, .invoked x.call x.request ∈ history
  returned : ∀ call answer, .returned call answer ∈ history →
    ∃ request, ⟨call, request, answer⟩ ∈ order
  realTime : ∀ before after call answer, history = before ++ .returned call answer :: after →
    ∀ later request, .invoked later request ∈ after →
      ∀ first rest, order = first ++ rest → later ∈ callsOf first → call ∈ callsOf first

namespace Linearizes

variable {history : List (Event Q A)} {call : Nat} {request : Q} {answer : A}

theorem empty : Linearizes serve s₀ [] [] where
  serial := ⟨s₀, .nil⟩
  once := List.nodup_nil
  invoked x hx := by cases hx
  returned call answer h := by cases h
  realTime before after call answer h := by simp at h

/-- A call is made that nobody has served. -/
theorem invoke (h : Linearizes serve s₀ history order) (hcall : call ∉ callsOf order) :
    Linearizes serve s₀ (history ++ [.invoked call request]) order where
  serial := h.serial
  once := h.once
  invoked x hx := List.mem_append_left _ (h.invoked x hx)
  returned c answer hr := by
    rcases List.mem_append.mp hr with hr | hr
    · exact h.returned c answer hr
    · simp at hr
  realTime before after c answer hsplit later request' hlater first rest horder hmem := by
    rcases List.eq_nil_or_concat after with rfl | ⟨after, e, rfl⟩
    · cases hlater
    rw [List.concat_eq_append] at hsplit hlater
    have hinj : history = before ++ .returned c answer :: after ∧
        [Event.invoked call request] = [e] := by
      refine List.append_inj' ?_ rfl
      rw [hsplit, List.append_assoc, List.cons_append]
    rcases List.mem_append.mp hlater with hlater | hlater
    · exact h.realTime before after c answer hinj.1 later request' hlater first rest horder hmem
    · -- the new call is not in the order
      rw [← hinj.2, List.mem_singleton, Event.invoked.injEq] at hlater
      obtain ⟨rfl, -⟩ := hlater
      rw [horder, callsOf_append, List.mem_append, not_or] at hcall
      exact absurd hmem hcall.1

/-- A request is served, after all that were. -/
theorem serveNext (h : Linearizes serve s₀ history order) (hs : Serves serve s₀ order s)
    (hinvoked : .invoked call request ∈ history) (hcall : call ∉ callsOf order) :
    Linearizes serve s₀ history (order ++ [⟨call, request, (serve request s).1⟩]) where
  serial := ⟨_, hs.snoc call request⟩
  once := by
    rw [callsOf_append, List.nodup_append_comm]
    exact List.nodup_cons.mpr ⟨hcall, h.once⟩
  invoked x hx := by
    rcases List.mem_append.mp hx with hx | hx
    · exact h.invoked x hx
    · obtain rfl := List.mem_singleton.mp hx
      exact hinvoked
  returned c answer hr := (h.returned c answer hr).imp fun _ hm => List.mem_append_left _ hm
  realTime before after c answer hsplit later request' hlater first rest horder hmem := by
    rcases List.eq_nil_or_concat rest with rfl | ⟨rest, x, rfl⟩
    · -- the whole order: what has returned was served
      rw [List.append_nil] at horder
      have hr : Event.returned c answer ∈ history := by
        rw [hsplit]
        exact List.mem_append_right _ List.mem_cons_self
      obtain ⟨request'', hm⟩ := h.returned c answer hr
      rw [← horder, callsOf_append]
      exact List.mem_append_left _ (mem_callsOf hm)
    · rw [List.concat_eq_append, ← List.append_assoc] at horder
      exact h.realTime before after c answer hsplit later request' hlater first rest
        (List.append_inj' horder rfl).1 hmem

/-- A call returns the answer it was served. -/
theorem reply (h : Linearizes serve s₀ history order)
    (hserved : ⟨call, request, answer⟩ ∈ order) :
    Linearizes serve s₀ (history ++ [.returned call answer]) order where
  serial := h.serial
  once := h.once
  invoked x hx := List.mem_append_left _ (h.invoked x hx)
  returned c a hr := by
    rcases List.mem_append.mp hr with hr | hr
    · exact h.returned c a hr
    · rw [List.mem_singleton, Event.returned.injEq] at hr
      obtain ⟨rfl, rfl⟩ := hr
      exact ⟨request, hserved⟩
  realTime before after c a hsplit later request' hlater first rest horder hmem := by
    rcases List.eq_nil_or_concat after with rfl | ⟨after, e, rfl⟩
    · cases hlater
    rw [List.concat_eq_append] at hsplit hlater
    have hinj : history = before ++ .returned c a :: after ∧
        [Event.returned call answer] = [e] := by
      refine List.append_inj' ?_ rfl
      rw [hsplit, List.append_assoc, List.cons_append]
    rcases List.mem_append.mp hlater with hlater | hlater
    · exact h.realTime before after c a hinj.1 later request' hlater first rest horder hmem
    · rw [← hinj.2, List.mem_singleton] at hlater
      cases hlater

/-- A call that was made after another had returned is not in front of it. -/
theorem ordered (h : Linearizes serve s₀ history order) {before after : List (Event Q A)}
    {first second : Nat} {a b : A} (hsplit : history = before ++ .returned first a :: after)
    (hinvoked : .invoked second request ∈ after) (hreturned : .returned second b ∈ history) :
    ∃ front rest x y, order = front ++ y :: rest ∧ x ∈ front ++ [y] ∧
      x.call = first ∧ x.answer = a ∧ y.call = second ∧ y.answer = b := by
  have hfirst : .returned first a ∈ history := by
    rw [hsplit]
    exact List.mem_append_right _ List.mem_cons_self
  obtain ⟨request₁, hx⟩ := h.returned first a hfirst
  obtain ⟨request₂, hy⟩ := h.returned second b hreturned
  obtain ⟨front, rest, horder⟩ := List.append_of_mem hy
  have horder' : order = (front ++ [⟨second, request₂, b⟩]) ++ rest := by
    rw [horder, List.append_assoc]
    rfl
  have hmem : first ∈ callsOf (front ++ [⟨second, request₂, b⟩]) :=
    h.realTime before after first a hsplit second request hinvoked _ rest horder'
      (mem_callsOf (List.mem_append_right _ List.mem_cons_self))
  obtain ⟨z, hz, hcall⟩ := List.mem_map.mp hmem
  -- a call is in the order once
  have hzx : z = ⟨first, request₁, a⟩ :=
    List.inj_on_of_nodup_map h.once (horder' ▸ List.mem_append_left _ hz) hx hcall
  exact ⟨front, rest, _, _, horder, hzx ▸ hz, rfl, rfl, rfl, rfl⟩

end Linearizes

end Service
