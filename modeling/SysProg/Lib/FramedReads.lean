import Mathlib.Data.List.Basic
import Mathlib.Data.List.Flatten
import Mathlib.Order.Lattice

/-!
# Messages cut by reads

A sender writes messages, each ended by a separator, and a receiver takes the
stream in chunks. A receiver that keeps no state between its reads splits every
chunk at the separators and decodes the pieces one by one. When only the
beginning of a message can be decoded at all, the receiver gets from each message
what it makes of the part that came in one read from the beginning on.
-/

namespace SysProg.Lib
variable {α β : Type*}

/-! ### Positions -/

def readEnds (start : ℕ) : List (List α) → List ℕ
  | [] => []
  | chunk :: chunks => (start + chunk.length) :: readEnds (start + chunk.length) chunks

def placed (start : ℕ) : List (List α) → List (ℕ × List α)
  | [] => []
  | body :: bodies => (start, body) :: placed (start + (body.length + 1)) bodies

def seenAtOnce (ends : List ℕ) (start length : ℕ) : ℕ :=
  min length ((ends.find? (fun e => start < e)).getD start - start)

def stream (sep : α) (bodies : List (List α)) : List α := (bodies.map (fun b => b ++ [sep])).flatten

theorem start_le_of_mem_placed {start : ℕ} {bodies : List (List α)} {p : ℕ × List α}
    (h : p ∈ placed start bodies) : start ≤ p.1 := by
  induction bodies generalizing start with
  | nil => cases h
  | cons body bodies ih =>
    rcases List.mem_cons.mp h with rfl | h
    · exact le_rfl
    · exact (Nat.le_add_right _ _).trans (ih h)

theorem seenAtOnce_cons_of_lt {e start : ℕ} (h : start < e) (ends : List ℕ) (length : ℕ) :
    seenAtOnce (e :: ends) start length = min length (e - start) := by
  simp [seenAtOnce, h]

theorem seenAtOnce_cons_of_le {e start : ℕ} (h : e ≤ start) (ends : List ℕ) (length : ℕ) :
    seenAtOnce (e :: ends) start length = seenAtOnce ends start length := by
  simp [seenAtOnce, h]

/-! ### The receiver -/

section Receiver
variable [DecidableEq α] (sep : α) (decode : List α → Option β)

/-- One read: the pieces between separators, the empty ones skipped. -/
def decodeRead (chunk : List α) : List β :=
  ((chunk.splitOnP (fun c => c = sep)).filter (fun piece => piece ≠ [])).filterMap decode

def decodeSeen (ends : List ℕ) (p : ℕ × List α) : Option β :=
  decode (p.2.take (seenAtOnce ends p.1 p.2.length))

def Silent (text : List α) : Prop := ∀ k n, decode ((text.drop k).take n) = none

variable {sep decode}

theorem decodeRead_body {body : List α} (hsep : sep ∉ body) (hnil : decode [] = none) :
    decodeRead sep decode body = (decode body).toList := by
  have hpieces : body.splitOnP (fun c => c = sep) = [body] := by
    apply List.splitOnP_eq_singleton
    intro c hc
    exact decide_eq_false (fun h => hsep (h ▸ hc))
  rw [decodeRead, hpieces]
  by_cases hne : body = []
  · subst hne
    simp [hnil]
  · cases hd : decode body <;> simp [hne, hd]

theorem decodeRead_append {body : List α} (hsep : sep ∉ body) (hnil : decode [] = none)
    (rest : List α) :
    decodeRead sep decode (body ++ sep :: rest) =
      (decode body).toList ++ decodeRead sep decode rest := by
  have hpieces : (body ++ sep :: rest).splitOnP (fun c => c = sep) =
      body :: rest.splitOnP (fun c => c = sep) := by
    apply List.splitOnP_append_cons_of_forall_mem
    · intro c hc
      exact decide_eq_false (fun h => hsep (h ▸ hc))
    · exact decide_eq_true rfl
  rw [decodeRead, hpieces]
  by_cases hne : body = []
  · subst hne
    simp [hnil, decodeRead]
  · cases hd : decode body <;> simp [hne, hd, decodeRead]

/-- What is left of a message whose beginning went with an earlier read. -/
inductive Leftover (sep : α) (decode : List α → Option β) : List α → Prop where
  | nothing : Leftover sep decode []
  | tail {text : List α} : sep ∉ text → Silent decode text → Leftover sep decode (text ++ [sep])

omit [DecidableEq α] in
theorem Leftover.drop {t : List α} (h : Leftover sep decode t) (n : ℕ) :
    Leftover sep decode (t.drop n) := by
  cases h with
  | nothing => rw [List.drop_nil]; exact .nothing
  | @tail text hsep hsilent =>
    by_cases hn : n ≤ text.length
    · rw [List.drop_append_of_le_length hn]
      apply Leftover.tail
      · exact fun h => hsep (List.mem_of_mem_drop h)
      · intro k m
        rw [List.drop_drop]
        exact hsilent (n + k) m
    · rw [List.drop_eq_nil_of_le]
      · exact .nothing
      · rw [List.length_append, List.length_singleton]
        omega

theorem Leftover.decodeRead_take {t : List α} (h : Leftover sep decode t) (hnil : decode [] = none)
    (n : ℕ) : decodeRead sep decode (t.take n) = [] := by
  cases h with
  | nothing =>
    rw [List.take_nil, decodeRead_body List.not_mem_nil hnil, hnil]
    rfl
  | @tail text hsep hsilent =>
    by_cases hn : n ≤ text.length
    · rw [List.take_append_of_le_length hn,
        decodeRead_body (fun h => hsep (List.mem_of_mem_take h)) hnil]
      have hnone := hsilent 0 n
      rw [List.drop_zero] at hnone
      rw [hnone]
      rfl
    · have hall : (text ++ [sep]).take n = text ++ sep :: [] := by
        apply List.take_of_length_le
        rw [List.length_append, List.length_singleton]
        omega
      have hnone := hsilent 0 text.length
      rw [List.drop_zero, List.take_length] at hnone
      rw [hall, decodeRead_append hsep hnil, decodeRead_body List.not_mem_nil hnil, hnone, hnil]
      rfl

theorem Leftover.decodeRead_append {t : List α} (h : Leftover sep decode t)
    (hnil : decode [] = none)
    (rest : List α) : decodeRead sep decode (t ++ rest) = decodeRead sep decode rest := by
  cases h with
  | nothing => rfl
  | @tail text hsep hsilent =>
    have hnone := hsilent 0 text.length
    rw [List.drop_zero, List.take_length] at hnone
    rw [List.append_assoc, List.singleton_append, SysProg.Lib.decodeRead_append hsep hnil, hnone]
    rfl

omit [DecidableEq α] in
theorem filterMap_decodeSeen_cons {e start : ℕ} (h : e ≤ start) (ends : List ℕ)
    (bodies : List (List α)) :
    (placed start bodies).filterMap (decodeSeen decode (e :: ends)) =
      (placed start bodies).filterMap (decodeSeen decode ends) := by
  apply List.filterMap_congr
  intro p hp
  rw [decodeSeen, decodeSeen, seenAtOnce_cons_of_le (h.trans (start_le_of_mem_placed hp))]

omit [DecidableEq α] in
theorem stream_cons (body : List α) (bodies : List (List α)) :
    stream sep (body :: bodies) = body ++ sep :: stream sep bodies := by
  simp [stream]

omit [DecidableEq α] in
theorem filterMap_placed_cons (ends : List ℕ) (start : ℕ) (body : List α) (bodies : List (List α)) :
    (placed start (body :: bodies)).filterMap (decodeSeen decode ends) =
      (decode (body.take (seenAtOnce ends start body.length))).toList ++
        (placed (start + (body.length + 1)) bodies).filterMap (decodeSeen decode ends) := by
  rw [placed, List.filterMap_cons, decodeSeen]
  cases decode (body.take (seenAtOnce ends start body.length)) <;> rfl

omit [DecidableEq α] in
theorem Silent.of_tail {x rest : List α} (h : Silent decode (x ++ rest).tail) (hx : x ≠ []) :
    Silent decode rest := by
  intro k n
  have hpos := List.length_pos_of_ne_nil hx
  have hdrop : (x ++ rest).tail.drop (x.length - 1) = rest := by
    have hsum : 1 + (x.length - 1) = x.length := by omega
    rw [← List.drop_one, List.drop_drop, hsum, List.drop_left]
  have hnone := h (x.length - 1 + k) n
  rwa [← List.drop_drop, hdrop] at hnone

def LaterReads (sep : α) (decode : List α → Option β) (chunks : List (List α)) : Prop :=
  ∀ start t bodies, Leftover sep decode t → (∀ b ∈ bodies, sep ∉ b) →
    (∀ b ∈ bodies, Silent decode b.tail) → chunks.flatten = t ++ stream sep bodies →
    chunks.flatMap (decodeRead sep decode) =
      (placed (start + t.length) bodies).filterMap (decodeSeen decode (readEnds start chunks))

/-- A read that ends within a message or at its last character. -/
theorem decode_partial {chunks bs : List (List α)} (hnil : decode [] = none)
    (later : LaterReads sep decode chunks) {x : List α} (rest : List α) (start : ℕ)
    (hb : sep ∉ x ++ rest) (hbs : ∀ b ∈ bs, sep ∉ b)
    (htail : ∀ b ∈ (x ++ rest) :: bs, Silent decode b.tail)
    (h : chunks.flatten = rest ++ sep :: stream sep bs) :
    decodeRead sep decode x ++ chunks.flatMap (decodeRead sep decode) =
      (placed start ((x ++ rest) :: bs)).filterMap (decodeSeen decode
        ((start + x.length) :: readEnds (start + x.length) chunks)) := by
  obtain ⟨hxsep, hrest⟩ := not_or.mp (fun hmem => hb (List.mem_append.mpr hmem))
  rw [decodeRead_body hxsep hnil]
  by_cases hx : x = []
  · subst hx
    have hnext := later start [] (rest :: bs) .nothing (List.forall_mem_cons.mpr ⟨hrest, hbs⟩) htail
      (by rw [h, stream_cons]; rfl)
    rw [hnil, hnext]
    exact (filterMap_decodeSeen_cons le_rfl _ _).symm
  · have hsilent := Silent.of_tail (htail _ List.mem_cons_self) hx
    have hnext := later (start + x.length) (rest ++ [sep]) bs (.tail hrest hsilent) hbs
      (fun b hb => htail b (List.mem_cons_of_mem _ hb)) (by rw [h, List.append_assoc]; rfl)
    have hpos := List.length_pos_of_ne_nil hx
    have hlen : start + x.length + (rest ++ [sep]).length = start + ((x ++ rest).length + 1) := by
      simp only [List.length_append, List.length_singleton]
      omega
    have hseen : seenAtOnce ((start + x.length) :: readEnds (start + x.length) chunks) start
        (x ++ rest).length = x.length := by
      rw [seenAtOnce_cons_of_lt (by omega), List.length_append]
      omega
    rw [filterMap_placed_cons, hseen, List.take_left, filterMap_decodeSeen_cons, hnext, hlen]
    rw [List.length_append]
    omega

theorem decode_from_boundary {chunks bodies : List (List α)} (hnil : decode [] = none)
    (later : LaterReads sep decode chunks) (hsep : ∀ b ∈ bodies, sep ∉ b)
    (htail : ∀ b ∈ bodies, Silent decode b.tail) {x : List α} (start : ℕ)
    (h : x ++ chunks.flatten = stream sep bodies) :
    decodeRead sep decode x ++ chunks.flatMap (decodeRead sep decode) =
      (placed start bodies).filterMap (decodeSeen decode
        ((start + x.length) :: readEnds (start + x.length) chunks)) := by
  induction bodies generalizing x start with
  | nil =>
    obtain ⟨rfl, hrest⟩ := List.append_eq_nil_iff.mp h
    rw [decodeRead_body List.not_mem_nil hnil, hnil, later start [] [] .nothing hsep htail hrest]
    rfl
  | cons b bs ih =>
    have hb := hsep b List.mem_cons_self
    have hbs := fun c hc => hsep c (List.mem_cons_of_mem b hc)
    rw [stream_cons] at h
    rcases List.append_eq_append_iff.mp h with ⟨rest, rfl, hrest⟩ | ⟨after, rfl, hafter⟩
    · exact decode_partial hnil later rest start hb hbs htail hrest
    · cases after with
      | nil =>
        rw [List.append_nil] at h ⊢
        have hpart := decode_partial hnil later [] start (by rwa [List.append_nil]) hbs
          (by rwa [List.append_nil]) hafter.symm
        rwa [List.append_nil] at hpart
      | cons c x =>
        -- the whole message is in this read
        obtain ⟨rfl, hrest⟩ := List.cons.inj hafter
        have hnext := ih hbs (fun c hc => htail c (List.mem_cons_of_mem b hc))
          (start + (b.length + 1)) hrest.symm
        have hlen : start + (b ++ sep :: x).length = start + (b.length + 1) + x.length := by
          rw [List.length_append, List.length_cons]
          omega
        have hseen : seenAtOnce ((start + (b ++ sep :: x).length) ::
            readEnds (start + (b ++ sep :: x).length) chunks) start b.length = b.length := by
          rw [seenAtOnce_cons_of_lt (by omega)]
          omega
        rw [decodeRead_append hb hnil, List.append_assoc, filterMap_placed_cons, hseen,
          List.take_length, hlen, hnext]

theorem laterReads {chunks : List (List α)} (hnil : decode [] = none) :
    LaterReads sep decode chunks := by
  induction chunks with
  | nil =>
    intro start t bodies ht hsep htail h
    obtain ⟨rfl, hbodies⟩ := List.append_eq_nil_iff.mp h.symm
    cases bodies with
    | nil => rfl
    | cons b bs => simp [stream_cons] at hbodies
  | cons chunk chunks ih =>
    intro start t bodies ht hsep htail h
    rw [List.flatten_cons] at h
    rw [List.flatMap_cons]
    rcases List.append_eq_append_iff.mp h with ⟨rest, rfl, hrest⟩ | ⟨x, rfl, hx⟩
    · -- the read ends within the leftover
      have hchunk := ht.decodeRead_take hnil chunk.length
      have hdrop := ht.drop chunk.length
      rw [List.take_left] at hchunk
      rw [List.drop_left] at hdrop
      have hnext := ih (start + chunk.length) rest bodies hdrop hsep htail hrest
      rw [hchunk, hnext, List.length_append, ← Nat.add_assoc]
      exact (filterMap_decodeSeen_cons (Nat.le_add_right _ _) _ _).symm
    · have hnext := decode_from_boundary hnil ih hsep htail (start + t.length) hx.symm
      rw [ht.decodeRead_append hnil, hnext, readEnds, List.length_append, ← Nat.add_assoc]

/-- From each message the receiver gets what it makes of the part that came in the read in
which the message begins, in the order of the messages, and nothing else. -/
theorem flatMap_decodeRead {chunks bodies : List (List α)} (hnil : decode [] = none)
    (hsep : ∀ b ∈ bodies, sep ∉ b) (htail : ∀ b ∈ bodies, Silent decode b.tail)
    (h : chunks.flatten = stream sep bodies) :
    chunks.flatMap (decodeRead sep decode) =
      (placed 0 bodies).filterMap (decodeSeen decode (readEnds 0 chunks)) :=
  laterReads hnil 0 [] bodies .nothing hsep htail h

end Receiver
end SysProg.Lib
