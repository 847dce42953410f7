import Cockroach.Lib.Outcome

/-!
# A store behind a queue of writes

Writes wait in a queue and reach a store one by one, in order. A reader of the
store wants to know what stays true of it whatever part of the queue has been
written: `Settles` says that a property holds now and after each write,
`Ends` that it holds after the last one, and `Follows` that after each write a
property of that write's own holds and goes on holding.

`exec` may stop; `E` bounds how.
-/

namespace Cockroach.Lib.WriteQueue

variable {σ ω ε : Type} (exec : σ → ω → Except ε σ) (E : ε → Prop)

/-- `P` holds of the store now and after each of the queued writes. -/
def Settles (P : σ → Prop) : σ → List ω → Prop
  | s, [] => P s
  | s, w :: ws => P s ∧ Sat (exec s w) E fun s' => Settles P s' ws

/-- `P` holds of the store once all queued writes are done. -/
def Ends (P : σ → Prop) : σ → List ω → Prop
  | s, [] => P s
  | s, w :: ws => Sat (exec s w) E fun s' => Ends P s' ws

/-- From each queued write `w` on, `R w` holds. -/
def Follows (R : ω → σ → Prop) : σ → List ω → Prop
  | _, [] => True
  | s, w :: ws => Sat (exec s w) E fun s' => Settles exec E (R w) s' ws ∧ Follows R s' ws

variable {exec E} {P Q : σ → Prop} {R : ω → σ → Prop}

theorem Settles.head : ∀ {s : σ} {q : List ω}, Settles exec E P s q → P s
  | _, [], h => h
  | _, _ :: _, h => h.1

theorem Settles.mono (hPQ : ∀ s, P s → Q s) :
    ∀ {s : σ} {q : List ω}, Settles exec E P s q → Settles exec E Q s q
  | _, [], h => hPQ _ h
  | _, _ :: _, h => ⟨hPQ _ h.1, h.2.imp fun _ h' => h'.mono hPQ⟩

theorem Settles.ends : ∀ {s : σ} {q : List ω}, Settles exec E P s q → Ends exec E P s q
  | _, [], h => h
  | _, _ :: _, h => h.2.imp fun _ h' => h'.ends

/-- What settles holds after any number of the queued writes. -/
theorem Settles.after : ∀ {s : σ} {q : List ω}, Settles exec E P s q → ∀ n,
    Sat ((q.take n).foldlM exec s) E P
  | _, [], h, _ => by simpa using h.head
  | _, _ :: _, h, 0 => by simpa using h.1
  | _, _ :: _, h, n + 1 => by
    rw [List.take_succ_cons, List.foldlM_cons]
    exact Sat.bind h.2 fun _ h' => h'.after n

theorem Ends.mono (hPQ : ∀ s, P s → Q s) :
    ∀ {s : σ} {q : List ω}, Ends exec E P s q → Ends exec E Q s q
  | _, [], h => hPQ _ h
  | _, _ :: _, h => Sat.imp h fun _ h' => h'.mono hPQ

theorem Ends.and : ∀ {s : σ} {q : List ω}, Ends exec E P s q → Ends exec E Q s q →
    Ends exec E (fun s => P s ∧ Q s) s q
  | _, [], hP, hQ => ⟨hP, hQ⟩
  | s, w :: q, hP, hQ => by
    have hP' : Sat (exec s w) E fun s' => Ends exec E P s' q := hP
    have hQ' : Sat (exec s w) E fun s' => Ends exec E Q s' q := hQ
    change Sat (exec s w) E fun s' => Ends exec E (fun s => P s ∧ Q s) s' q
    cases hx : exec s w with
    | error e => rw [hx] at hP'; exact hP'
    | ok s' =>
      rw [hx] at hP' hQ'
      exact Ends.and hP' hQ'

theorem Follows.mono {R' : ω → σ → Prop} :
    ∀ {s : σ} {q : List ω}, (∀ w ∈ q, ∀ s, R w s → R' w s) → Follows exec E R s q →
      Follows exec E R' s q
  | _, [], _, _ => trivial
  | _, w :: _, hR, h =>
    Sat.imp h fun _ h' => ⟨h'.1.mono (hR w List.mem_cons_self),
      h'.2.mono fun v hv => hR v (List.mem_cons_of_mem _ hv)⟩

/-- What holds of every store holds at the end of the queue. -/
theorem Follows.ends (hP : ∀ s, P s) :
    ∀ {s : σ} {q : List ω}, Follows exec E R s q → Ends exec E P s q
  | _, [], _ => hP _
  | _, _ :: _, h => Sat.imp h fun _ h' => h'.2.ends hP

/-- The last write may be added to the queue when it establishes `P`. -/
theorem Ends.snoc {w : ω} : ∀ {s : σ} {q : List ω},
    Ends exec E (fun s' => Sat (exec s' w) E P) s q → Ends exec E P s (q ++ [w])
  | _, [], h => h
  | _, _ :: _, h => Sat.imp h fun _ h' => h'.snoc

theorem Settles.snoc {w : ω} : ∀ {s : σ} {q : List ω}, Settles exec E P s q →
    Ends exec E (fun s' => Sat (exec s' w) E P) s q → Settles exec E P s (q ++ [w])
  | _, [], h, hw => ⟨h, hw⟩
  | s, v :: q, h, hw => by
    refine ⟨h.1, ?_⟩
    have hv : Sat (exec s v) E (fun s' => Settles exec E P s' q) := h.2
    have hw' : Sat (exec s v) E
        (fun s' => Ends exec E (fun s'' => Sat (exec s'' w) E P) s' q) := hw
    cases hx : exec s v with
    | error e => rw [hx] at hv; exact hv
    | ok s' =>
      rw [hx] at hv hw'
      exact Settles.snoc hv hw'

theorem Follows.snoc {w : ω} : ∀ {s : σ} {q : List ω}, Follows exec E R s q →
    (∀ v ∈ q, Ends exec E (fun s' => Sat (exec s' w) E (R v)) s q) →
    Ends exec E (fun s' => Sat (exec s' w) E (R w)) s q → Follows exec E R s (q ++ [w])
  | _, [], _, _, hw => Sat.imp hw fun _ h => ⟨h, trivial⟩
  | s, u :: q, h, hv, hw => by
    change Sat (exec s u) E _
    have h0 : Sat (exec s u) E _ := h
    have hw0 : Sat (exec s u) E _ := hw
    have hv0 : ∀ v ∈ u :: q, Sat (exec s u) E _ := hv
    cases hx : exec s u with
    | error e => rw [hx] at h0; exact h0
    | ok s' =>
      rw [hx] at h0 hw0
      simp only [hx] at hv0
      exact ⟨Settles.snoc h0.1 (hv0 u List.mem_cons_self),
        Follows.snoc h0.2 (fun v hv' => hv0 v (List.mem_cons_of_mem _ hv')) hw0⟩

/-! A change `g` of the store that no write looks at may come before the queue. -/

section Map

variable {g : σ → σ} (hg : ∀ s w, exec (g s) w = (exec s w).map g)

include hg

theorem sat_exec_map {s : σ} {w : ω} {P' : σ → Prop} (h : Sat (exec s w) E P)
    (hP : ∀ s', P s' → P' (g s')) : Sat (exec (g s) w) E P' := by
  rw [hg]
  cases hx : exec s w with
  | error e => rw [hx] at h; exact h
  | ok s' => rw [hx] at h; exact hP s' h

theorem Settles.map (hP : ∀ s, P s → P (g s)) : ∀ {s : σ} {q : List ω},
    Settles exec E P s q → Settles exec E P (g s) q
  | _, [], h => hP _ h
  | _, _ :: _, h => ⟨hP _ h.1, sat_exec_map hg h.2 fun _ h' => Settles.map hP h'⟩

theorem Ends.map (hP : ∀ s, P s → P (g s)) : ∀ {s : σ} {q : List ω},
    Ends exec E P s q → Ends exec E P (g s) q
  | _, [], h => hP _ h
  | _, _ :: _, h => sat_exec_map hg h fun _ h' => Ends.map hP h'

theorem Follows.map (hR : ∀ w s, R w s → R w (g s)) : ∀ {s : σ} {q : List ω},
    Follows exec E R s q → Follows exec E R (g s) q
  | _, [], _ => trivial
  | _, w :: _, h =>
    sat_exec_map hg h fun _ h' => ⟨Settles.map hg (hR w) h'.1, Follows.map hR h'.2⟩

end Map

end Cockroach.Lib.WriteQueue
