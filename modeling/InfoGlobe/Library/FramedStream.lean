import Mathlib.Data.List.Basic
import Mathlib.Data.List.Range

/-!
Streams of frames without separators, and events that belong to positions of the stream. A reader
that looks at the stream one window at a time, and only at the first position of each window, sees
what the frames call for exactly when every frame that calls for something begins a window.
-/

namespace FramedStream
universe u v w
variable {α : Type u} {φ : Type v} {ε : Type w}

/-! ### Events at positions -/

/-- What is due at the `n` positions from `p` on, each event with its position. -/
def located (due : Nat → Option ε) (p n : Nat) : List (Nat × ε) :=
  (List.range' p n).filterMap fun q => (due q).map (Prod.mk q)

/-- The event a reader makes of a window, at the window's first position. -/
def single (p : Nat) (got : Option ε) : List (Nat × ε) := got.toList.map (Prod.mk p)

section Located
variable {due due' : Nat → Option ε} {p m n : Nat}

@[simp] theorem located_zero : located due p 0 = [] := rfl

theorem located_succ : located due p (n + 1) = single p (due p) ++ located due (p + 1) n := by
  simp only [located, List.range'_succ, List.filterMap_cons, single]
  cases due p <;> rfl

theorem located_add : located due p (m + n) = located due p m ++ located due (p + m) n := by
  simp only [located, ← List.filterMap_append, List.range'_append_1]

theorem located_congr (h : ∀ q, p ≤ q → q < p + n → due q = due' q) :
    located due p n = located due' p n := by
  apply List.filterMap_congr
  intro q hq
  obtain ⟨hle, hlt⟩ := List.mem_range'_1.mp hq
  rw [h q hle hlt]

theorem located_eq_nil_iff : located due p n = [] ↔ ∀ q, p ≤ q → q < p + n → due q = none := by
  simp only [located, List.filterMap_eq_nil_iff, List.mem_range'_1, Option.map_eq_none_iff]
  exact ⟨fun h q hle hlt => h q ⟨hle, hlt⟩, fun h q hq => h q hq.1 hq.2⟩

theorem position_of_mem_located {e : Nat × ε} (h : e ∈ located due p n) :
    p ≤ e.1 ∧ e.1 < p + n := by
  obtain ⟨q, hq, he⟩ := List.mem_filterMap.mp h
  obtain ⟨x, _, rfl⟩ := Option.map_eq_some_iff.mp he
  exact List.mem_range'_1.mp hq

theorem position_of_mem_single {e : Nat × ε} {got : Option ε} (h : e ∈ single p got) :
    e.1 = p := by
  obtain ⟨x, _, rfl⟩ := List.mem_map.mp h
  rfl

theorem single_inj {got got' : Option ε} : single p got = single p got' ↔ got = got' := by
  cases got <;> cases got' <;> simp [single]

end Located

/-- Lists whose events lie below and above one position are equal part by part. -/
theorem append_eq_append_iff_of_below {xs ys zs ws : List (Nat × ε)} (m : Nat)
    (hxs : ∀ e ∈ xs, e.1 < m) (hys : ∀ e ∈ ys, m ≤ e.1) (hzs : ∀ e ∈ zs, e.1 < m)
    (hws : ∀ e ∈ ws, m ≤ e.1) : xs ++ ys = zs ++ ws ↔ xs = zs ∧ ys = ws := by
  have hbelow : ∀ {as bs : List (Nat × ε)}, (∀ e ∈ as, e.1 < m) → (∀ e ∈ bs, m ≤ e.1) →
      (as ++ bs).filter (fun e => e.1 < m) = as := by
    intro as bs has hbs
    rw [List.filter_append, List.filter_eq_self.mpr (by simpa using has),
      List.filter_eq_nil_iff.mpr (by simpa using hbs), List.append_nil]
  constructor
  · intro h
    have hfirst : xs = zs := by
      rw [← hbelow hxs hys, h, hbelow hzs hws]
    exact ⟨hfirst, List.append_cancel_left (hfirst ▸ h)⟩
  · rintro ⟨rfl, rfl⟩
    rfl

/-- A window of `n + 1` positions, and the rest of the stream behind it. -/
theorem window_eq_located_iff {due : Nat → Option ε} {p n k : Nat} {got : Option ε}
    {rest : List (Nat × ε)} (hrest : ∀ e ∈ rest, p + (n + 1) ≤ e.1) :
    single p got ++ rest = located due p (n + 1 + k) ↔
      got = due p ∧ (∀ q, p < q → q < p + (n + 1) → due q = none) ∧
        rest = located due (p + (n + 1)) k := by
  have hgot : ∀ e ∈ single p got, e.1 < p + (n + 1) := by
    intro e he
    rw [position_of_mem_single he]
    omega
  rw [located_add, append_eq_append_iff_of_below (p + (n + 1)) hgot hrest
    (fun e he => (position_of_mem_located he).2) (fun e he => (position_of_mem_located he).1),
    ← and_assoc]
  refine and_congr ?_ Iff.rfl
  rw [located_succ, ← List.append_nil (single p got),
    append_eq_append_iff_of_below (p + 1)
      (fun e he => (position_of_mem_single he).trans_lt (Nat.lt_succ_self p)) (by simp)
      (fun e he => (position_of_mem_single he).trans_lt (Nat.lt_succ_self p))
      (fun e he => (position_of_mem_located he).1), single_inj, eq_comm (a := []),
    located_eq_nil_iff]
  refine and_congr Iff.rfl ⟨fun h q hlt hq => h q hlt (by omega), fun h q hlt hq => ?_⟩
  exact h q hlt (by omega)

/-! ### Frames -/

section Frames
variable (bytes : φ → List α) (due : φ → Option ε)

/-- The frame that begins at position `q` of a stream that begins at `p`. -/
def frameAt : Nat → List φ → Nat → Option φ
  | _, [], _ => none
  | p, f :: fs, q => if q = p then some f else frameAt (p + (bytes f).length) fs q

/-- What the frames call for, one after another, each at its own position. -/
def framed : Nat → List φ → List (Nat × ε)
  | _, [] => []
  | p, f :: fs => single p (due f) ++ framed (p + (bytes f).length) fs

variable {bytes due}

theorem frameAt_of_lt {p q : Nat} {fs : List φ} (h : q < p) : frameAt bytes p fs q = none := by
  induction fs generalizing p with
  | nil => rfl
  | cons f fs ih =>
      rw [frameAt, if_neg (Nat.ne_of_lt h)]
      exact ih (by omega)

/-- A frame stands in the stream where it begins, with other frames behind it. -/
theorem frameAt_eq_some {p q : Nat} {fs : List φ} {f : φ} (h : frameAt bytes p fs q = some f) :
    f ∈ fs ∧
      ∃ rest : List φ, (fs.flatMap bytes).drop (q - p) = bytes f ++ rest.flatMap bytes := by
  induction fs generalizing p with
  | nil => exact absurd h (Option.some_ne_none f).symm
  | cons g fs ih =>
      rw [frameAt] at h
      by_cases hq : q = p
      · rw [if_pos hq] at h
        obtain rfl : g = f := Option.some.inj h
        refine ⟨List.mem_cons_self, fs, ?_⟩
        rw [hq, Nat.sub_self, List.drop_zero, List.flatMap_cons]
      · rw [if_neg hq] at h
        have hle : p + (bytes g).length ≤ q := by
          by_contra hlt
          rw [frameAt_of_lt (by omega)] at h
          exact absurd h (Option.some_ne_none f).symm
        obtain ⟨hmem, rest, hdrop⟩ := ih h
        refine ⟨List.mem_cons_of_mem g hmem, rest, ?_⟩
        obtain ⟨k, rfl⟩ := Nat.exists_eq_add_of_le hle
        rw [Nat.add_sub_cancel_left] at hdrop
        rw [List.flatMap_cons, Nat.add_assoc, Nat.add_sub_cancel_left, List.drop_length_add_append]
        exact hdrop

/-- The frames' own order is the order of their positions. -/
theorem framed_eq_located {p : Nat} {fs : List φ} (hne : ∀ f ∈ fs, bytes f ≠ []) :
    framed bytes due p fs =
      located (fun q => (frameAt bytes p fs q).bind due) p (fs.flatMap bytes).length := by
  induction fs generalizing p with
  | nil => rfl
  | cons f fs ih =>
      have htail : ∀ g ∈ fs, bytes g ≠ [] := fun g hg => hne g (List.mem_cons_of_mem f hg)
      obtain ⟨k, hk⟩ := Nat.exists_eq_add_one.mpr
        (List.length_pos_of_ne_nil (hne f List.mem_cons_self))
      have hhead : frameAt bytes p (f :: fs) p = some f := if_pos rfl
      have hinner : ∀ q, p < q → frameAt bytes p (f :: fs) q =
          frameAt bytes (p + (bytes f).length) fs q := fun q hq => if_neg (Nat.ne_of_gt hq)
      have hnone : located (fun q => (frameAt bytes p (f :: fs) q).bind due) (p + 1) k = [] := by
        rw [located_eq_nil_iff]
        intro q hlt hq
        rw [hinner q hlt, frameAt_of_lt (by omega)]
        rfl
      have hrest : located (fun q => (frameAt bytes p (f :: fs) q).bind due)
          (p + (bytes f).length) (fs.flatMap bytes).length =
            located (fun q => (frameAt bytes (p + (bytes f).length) fs q).bind due)
              (p + (bytes f).length) (fs.flatMap bytes).length := by
        apply located_congr
        intro q hle _
        rw [hinner q (by omega)]
      rw [framed, ih htail, List.flatMap_cons, List.length_append, located_add, hrest, hk,
        located_succ, hnone, List.append_nil, hhead]
      rfl

end Frames

end FramedStream
