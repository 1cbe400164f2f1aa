import AFSv1.Foundations.Bytes

/-! Copying in chunks when reads and writes may fail: what is read before the first read that fails, and
what is stored before the first write that runs out of room. -/
namespace AFSv1.Foundations.Chunks

variable {α : Type}

/-- The chunks before the first read to fail. -/
def readWhile (ok : ℕ → Bool) : List (List α) → List (List α)
  | [] => []
  | b :: bs => if ok 0 then b :: readWhile (fun k => ok (k + 1)) bs else []

/-- A write with this much room, if it is limited, stores the chunk. -/
def fits (room : Option ℕ) (b : List α) : Bool :=
  match room with
  | none => true
  | some n => b.length ≤ n

/-- What is stored of the chunks up to the first write that does not store its whole chunk. -/
def stored (room : ℕ → Option ℕ) : List (List α) → List α
  | [] => []
  | b :: bs => if fits (room 0) b then b ++ stored (fun k => room (k + 1)) bs else b.take ((room 0).getD 0)

attribute [local simp] readWhile stored

@[simp] lemma fits_none (b : List α) : fits none b = true := rfl

@[simp] lemma fits_nil (room : Option ℕ) : fits room ([] : List α) = true := by cases room <;> simp [fits]

/-- A chunk that does not fit is cut. -/
lemma length_take_of_not_fits {room : Option ℕ} {b : List α} (h : fits room b = false) :
    (b.take (room.getD 0)).length < b.length := by
  cases room with
  | none => simp at h
  | some n =>
    have hlt : n < b.length := by simpa [fits] using h
    simpa using hlt

variable {ok : ℕ → Bool} {room : ℕ → Option ℕ} {bs : List (List α)}

lemma forall_cons {b : List α} {P : ℕ → List α → Prop} :
    (∀ k c, (b :: bs)[k]? = some c → P k c) ↔ P 0 b ∧ ∀ k c, bs[k]? = some c → P (k + 1) c := by
  constructor
  · intro h
    exact ⟨h 0 b rfl, fun k c hk => h (k + 1) c hk⟩
  · rintro ⟨h₀, h⟩ k c hk
    cases k with
    | zero =>
      obtain rfl : b = c := by simpa using hk
      exact h₀
    | succ k => exact h k c hk

lemma readWhile_prefix (ok : ℕ → Bool) (bs : List (List α)) : readWhile ok bs <+: bs := by
  induction bs generalizing ok with
  | nil => exact List.prefix_rfl
  | cons b bs ih =>
    rw [readWhile]
    split_ifs
    · exact List.cons_prefix_cons.mpr ⟨rfl, ih _⟩
    · exact List.nil_prefix

lemma readWhile_eq_nil_iff (hne : bs ≠ []) : readWhile ok bs = [] ↔ ok 0 = false := by
  obtain ⟨b, bs, rfl⟩ := List.exists_cons_of_ne_nil hne
  cases h : ok 0 <;> simp [h]

lemma stored_length_le (room : ℕ → Option ℕ) (bs : List (List α)) : (stored room bs).length ≤ bs.flatten.length := by
  induction bs generalizing room with
  | nil => simp
  | cons b bs ih =>
    rw [stored, List.flatten_cons, List.length_append]
    split_ifs with hfits
    · rw [List.length_append]
      exact Nat.add_le_add_left (ih _) _
    · have := length_take_of_not_fits (Bool.eq_false_iff.mpr hfits)
      omega

/-- All is stored exactly if every chunk finds room. -/
theorem stored_eq_iff : stored room bs = bs.flatten ↔ ∀ k b, bs[k]? = some b → fits (room k) b := by
  induction bs generalizing room with
  | nil => simp
  | cons b bs ih =>
    rw [forall_cons, stored, List.flatten_cons]
    split_ifs with hfits
    · rw [List.append_cancel_left_eq, ih]
      exact ⟨fun h => ⟨hfits, h⟩, fun h => h.2⟩
    · refine iff_of_false (fun heq => ?_) fun h => hfits h.1
      have hlength := congrArg List.length heq
      have hcut := length_take_of_not_fits (Bool.eq_false_iff.mpr hfits)
      rw [List.length_append] at hlength
      omega

/-- Where only the last chunk may be empty, all bytes are read exactly if no read of a byte fails. -/
theorem flatten_readWhile_eq_iff (hne : ∀ b ∈ bs.dropLast, b ≠ []) :
    (readWhile ok bs).flatten = bs.flatten ↔ ∀ k b, bs[k]? = some b → b ≠ [] → ok k := by
  induction bs generalizing ok with
  | nil => simp
  | cons b bs ih =>
    have hrest : ∀ c ∈ bs.dropLast, c ≠ [] := by
      intro c hc
      cases bs with
      | nil => simp at hc
      | cons b' bs => exact hne c (by simp [hc])
    rw [forall_cons, readWhile, List.flatten_cons]
    cases hok : ok 0 with
    | true =>
      rw [if_pos rfl, List.flatten_cons, List.append_cancel_left_eq, ih hrest]
      exact ⟨fun h => ⟨fun _ => rfl, h⟩, fun h => h.2⟩
    | false =>
      rw [if_neg (by simp)]
      by_cases hb : b = []
      · have hbs : bs = [] := by
          cases bs with
          | nil => rfl
          | cons b' bs => exact absurd hb (hne b (by simp))
        simp [hb, hbs]
      · refine iff_of_false (fun h => hb ?_) fun h => by simpa using h.1 hb
        exact (List.append_eq_nil_iff.mp h.symm).1

/-- A copy is whole exactly if each chunk with a byte in it is read and every chunk finds room. -/
theorem stored_readWhile_eq_iff (hne : ∀ b ∈ bs.dropLast, b ≠ []) :
    stored room (readWhile ok bs) = bs.flatten ↔
      (∀ k b, bs[k]? = some b → b ≠ [] → ok k) ∧ ∀ k b, bs[k]? = some b → fits (room k) b := by
  obtain ⟨tail, htail⟩ := readWhile_prefix ok bs
  have hread : (readWhile ok bs).flatten ++ tail.flatten = bs.flatten := by rw [← htail, List.flatten_append, htail]
  constructor
  · intro hstored
    -- nothing got lost on the way, so neither half lost anything
    have hle := stored_length_le room (readWhile ok bs)
    have hlength := congrArg List.length hread
    rw [hstored] at hle
    rw [List.length_append] at hlength
    have htail_nil : tail.flatten = [] := List.length_eq_zero_iff.mp (by omega)
    rw [htail_nil, List.append_nil] at hread
    refine ⟨(flatten_readWhile_eq_iff hne).mp hread, fun k b hk => ?_⟩
    have hstores := stored_eq_iff.mp (hstored.trans hread.symm)
    by_cases hlt : k < (readWhile ok bs).length
    · apply hstores k b
      rwa [← htail, List.getElem?_append_left hlt] at hk
    · rw [← htail, List.getElem?_append_right (by omega)] at hk
      have hb : b = [] := List.flatten_eq_nil_iff.mp htail_nil b (List.mem_of_getElem? hk)
      simp [hb]
  · rintro ⟨hreads, hstores⟩
    rw [← (flatten_readWhile_eq_iff hne).mpr hreads, stored_eq_iff]
    intro k b hk
    apply hstores k b
    rw [← htail, List.getElem?_append_left (List.getElem?_eq_some_iff.mp hk).1]
    exact hk

/-! ### Files in blocks -/

/-- A block before the last one is not empty. -/
lemma ne_nil_of_mem_dropLast {n : ℕ} (hn : 0 < n) {data b : Bytes} (hb : b ∈ (Bytes.blocks n data).dropLast) : b ≠ [] := by
  generalize hlength : data.length = k at hb
  induction k using Nat.strong_induction_on generalizing data with
  | _ k ih =>
    rw [Bytes.blocks_eq hn] at hb
    split_ifs at hb with hshort
    · simp at hb
    · rw [List.dropLast_cons_of_ne_nil (Bytes.blocks_ne_nil n (data.drop n))] at hb
      rcases List.mem_cons.mp hb with rfl | hb
      · rw [← List.length_pos_iff, List.length_take]
        omega
      · exact ih (data.drop n).length (by rw [List.length_drop]; omega) hb rfl

/-- A file is copied whole exactly if all reads and writes of its bytes succeed. -/
theorem stored_blocks_eq_iff {n : ℕ} (hn : 0 < n) {data : Bytes} :
    stored room (readWhile ok (Bytes.blocks n data)) = data ↔
      (∀ k b, (Bytes.blocks n data)[k]? = some b → b ≠ [] → ok k) ∧
        ∀ k b, (Bytes.blocks n data)[k]? = some b → fits (room k) b := by
  have h := @stored_readWhile_eq_iff _ ok room _ fun b => @ne_nil_of_mem_dropLast n hn data b
  rwa [Bytes.blocks_flatten] at h

/-- One round of a loop that reads blocks. -/
lemma readWhile_blocks {n : ℕ} (hn : 0 < n) (data : Bytes) :
    readWhile ok (Bytes.blocks n data) = if ok 0 then
      (if data.length < n then [data] else data.take n :: readWhile (fun k => ok (k + 1)) (Bytes.blocks n (data.drop n)))
    else [] := by
  rw [Bytes.blocks_eq hn]
  cases hok : ok 0 <;> split_ifs <;> simp_all

end AFSv1.Foundations.Chunks
