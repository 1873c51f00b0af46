import Dlbase.String.RoundTrip

/-!
# What the decoder accepts

The loop that looks for illegal characters uses them as indices as they are, and a `char` is
signed.  A byte from 128 on that it comes to is a negative index, which is outside the table.
-/

namespace Dlbase.DlString

open Cmem

variable {k : Codec} {s : List UInt8}

/-- The characters in front of the first `=`. -/
def unpadded (s : List UInt8) : List UInt8 := s.takeWhile (· ≠ ch '=')

/-- A text that the decoder is to refuse. -/
def Codec.Illegal (k : Codec) (s : List UInt8) : Prop :=
  (∃ c ∈ unpadded s, c ∉ k.alphabet) ∨ (unpadded s).length % 4 = 1

/-- The decoder reads its table inside its bounds; it refuses the text if it is illegal, and
decodes it otherwise. -/
def Codec.Accepts (k : Codec) (s : List UInt8) : Prop :=
  ∃ r, k.decode s = .ok r ∧ (r = none ↔ k.Illegal s)

/-- The first character that is `=` or outside the alphabet, if there is one, is below 128. -/
def Codec.StopsBelow (k : Codec) (s : List UInt8) : Prop :=
  ∀ c ∈ s.find? (fun c ↦ c = ch '=' ∨ c ∉ k.alphabet), c < 128

variable {c : UInt8}

theorem unpadded_pad (s : List UInt8) : unpadded (ch '=' :: s) = [] :=
  List.takeWhile_cons_of_neg (by simp)

theorem unpadded_cons (hc : c ≠ ch '=') (s : List UInt8) : unpadded (c :: s) = c :: unpadded s :=
  List.takeWhile_cons_of_pos (by simpa using hc)

theorem Codec.stopsBelow_stop (h : c = ch '=' ∨ c ∉ k.alphabet) :
    k.StopsBelow (c :: s) ↔ c < 128 := by
  rw [Codec.StopsBelow, List.find?_cons_of_pos (by simpa using h)]
  simp

theorem Codec.stopsBelow_cons (h : c ∈ k.alphabet) : k.StopsBelow (c :: s) ↔ k.StopsBelow s := by
  have hne := (k.of_mem h).2
  rw [Codec.StopsBelow, List.find?_cons_of_neg (by simpa [h] using hne)]
  rfl

/-! ## The loop that looks for illegal characters -/

/-- The loop goes on behind a legal character. -/
theorem Codec.legalLength_cons (h : c ∈ k.alphabet) (s : List UInt8) :
    legalLength k.inverse (c :: s) =
      legalLength k.inverse s >>= fun len ↦ .ok (len.map (· + 1)) := by
  obtain ⟨hlt, hne⟩ := k.of_mem h
  obtain ⟨x, hget, hentry⟩ := k.exists_entry c
  have hx : x ≠ 77 := fun hx ↦ (k.inverse_eq_iff c).mp (hx ▸ hget) h
  rw [legalLength, if_neg hne, charIndex_of_lt hlt, hentry, Exec.ok_bind, if_neg hx]
  rfl

/-- An illegal character below 128 ends the loop. -/
theorem Codec.legalLength_illegal (h : c ∉ k.alphabet) (hne : c ≠ ch '=') (hlt : c < 128)
    (s : List UInt8) : legalLength k.inverse (c :: s) = .ok none := by
  obtain ⟨x, hget, hentry⟩ := k.exists_entry c
  have hx : x = 77 := Option.some.inj (hget.symm.trans ((k.inverse_eq_iff c).mpr h))
  rw [legalLength, if_neg hne, charIndex_of_lt hlt, hentry, Exec.ok_bind, if_pos hx]
  rfl

/-- The table is read in front of its beginning. -/
theorem Codec.legalLength_undef (hlt : ¬ c < 128) (s : List UInt8) :
    legalLength k.inverse (c :: s) = Exec.undef := by
  have hne : c ≠ ch '=' := by
    rintro rfl
    exact hlt (by decide)
  rw [legalLength, if_neg hne, entry, if_pos (charIndex_neg hlt)]
  rfl

theorem Codec.legalLength_of_stopsBelow (h : k.StopsBelow s) :
    (legalLength k.inverse s = .ok none ∧ ∃ c ∈ unpadded s, c ∉ k.alphabet) ∨
      (legalLength k.inverse s = .ok (some (unpadded s).length) ∧
        ∀ c ∈ unpadded s, c ∈ k.alphabet) := by
  induction s with
  | nil => exact .inr ⟨rfl, nofun⟩
  | cons c s ih =>
    by_cases hc : c = ch '='
    · subst hc
      rw [unpadded_pad]
      exact .inr ⟨if_pos rfl, nofun⟩
    rw [unpadded_cons hc]
    by_cases hmem : c ∈ k.alphabet
    · rw [k.legalLength_cons hmem]
      rcases ih ((k.stopsBelow_cons hmem).mp h) with ⟨hrun, d, hd, hnot⟩ | ⟨hrun, hall⟩
      · rw [hrun]
        exact .inl ⟨rfl, d, List.mem_cons_of_mem _ hd, hnot⟩
      · rw [hrun]
        exact .inr ⟨rfl, List.forall_mem_cons.mpr ⟨hmem, hall⟩⟩
    · have hlt := (k.stopsBelow_stop (.inr hmem)).mp h
      exact .inl ⟨k.legalLength_illegal hmem hc hlt s, c, List.mem_cons_self, hmem⟩

theorem Codec.legalLength_of_not_stopsBelow (h : ¬ k.StopsBelow s) :
    legalLength k.inverse s = Exec.undef := by
  induction s with
  | nil => exact absurd (fun c hc ↦ nomatch hc) h
  | cons c s ih =>
    by_cases hmem : c ∈ k.alphabet
    · rw [k.legalLength_cons hmem, ih ((k.stopsBelow_cons hmem).not.mp h)]
      rfl
    · exact k.legalLength_undef ((k.stopsBelow_stop (.inr hmem)).not.mp h) s

/-! ## The decoder -/

/-- The loop that decodes stays inside the table. -/
theorem Codec.exists_decodeLoop (k : Codec) (s : List UInt8) :
    ∃ d, decodeLoop k.inverse s = .ok d := by
  induction s using decodeLoop.induct with
  | case1 s₀ s₁ s₂ s₃ s ih =>
    obtain ⟨x₀, -, h₀⟩ := k.exists_entry s₀
    obtain ⟨x₁, -, h₁⟩ := k.exists_entry s₁
    obtain ⟨x₂, -, h₂⟩ := k.exists_entry s₂
    obtain ⟨x₃, -, h₃⟩ := k.exists_entry s₃
    obtain ⟨d, hd⟩ := ih
    rw [decodeLoop, h₀, h₁, h₂, h₃, hd]
    exact ⟨_, rfl⟩
  | case2 s₀ s₁ s₂ =>
    obtain ⟨x₀, -, h₀⟩ := k.exists_entry s₀
    obtain ⟨x₁, -, h₁⟩ := k.exists_entry s₁
    obtain ⟨x₂, -, h₂⟩ := k.exists_entry s₂
    rw [decodeLoop, h₀, h₁, h₂]
    exact ⟨_, rfl⟩
  | case3 s₀ s₁ =>
    obtain ⟨x₀, -, h₀⟩ := k.exists_entry s₀
    obtain ⟨x₁, -, h₁⟩ := k.exists_entry s₁
    rw [decodeLoop, h₀, h₁]
    exact ⟨_, rfl⟩
  | case4 s h₄ h₃ h₂ =>
    refine ⟨[], ?_⟩
    rw [decodeLoop]
    · rfl
    · exact h₄
    · exact h₃
    · exact h₂

/-- The decoder accepts just its language if the first character that is `=` or outside the
alphabet is below 128. -/
theorem base64_accepts_iff (k : Codec) (s : List UInt8) : k.Accepts s ↔ k.StopsBelow s := by
  constructor
  · rintro ⟨r, hrun, -⟩
    by_contra hstop
    rw [k.decode_eq, decodeBase64Internal, k.legalLength_of_not_stopsBelow hstop] at hrun
    cases hrun
  · intro hstop
    unfold Codec.Accepts
    rw [k.decode_eq, decodeBase64Internal]
    rcases k.legalLength_of_stopsBelow hstop with ⟨hrun, hill⟩ | ⟨hrun, hall⟩
    · exact ⟨none, by rw [hrun]; rfl, iff_of_true rfl (.inl hill)⟩
    · rw [hrun, Exec.ok_bind]
      by_cases hmod : (unpadded s).length % 4 = 1
      · exact ⟨none, if_pos hmod, iff_of_true rfl (.inr hmod)⟩
      · obtain ⟨d, hd⟩ := k.exists_decodeLoop (s.take (unpadded s).length)
        refine ⟨some d, ?_, iff_of_false (by rintro ⟨⟩) ?_⟩
        · simp only [if_neg hmod, hd]
          rfl
        · rintro (⟨c, hc, hnot⟩ | h)
          · exact hnot (hall c hc)
          · exact hmod h

/-- The byte 128 is looked up in front of the table. -/
theorem base64_not_accepts : ¬ Codec.url.Accepts [128] := by
  rintro ⟨r, hrun, -⟩
  have hundef : Codec.url.decode [128] = Exec.undef := by decide
  exact nomatch hundef.symm.trans hrun

end Dlbase.DlString
