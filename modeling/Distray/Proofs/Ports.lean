/-
What `parse_endpoint` makes of a string.

`Means` says what an endpoint stands for, by what is written on either side of its first
colon.  The only thing that the parser does otherwise is on account of a number that no
`int` holds: it is cut to 32 bits, and where what is left is not negative it becomes the
port.  `Truncated` is the language of those numbers.

Other numbers that no `int` holds come out negative, or are clamped to -1 by way of `long`,
and are refused as ports; the text is then taken for a hostname, or for a bad port.
-/
import Distray.Endpoints
import Distray.Proofs.Numerals

namespace Distray

/-! ### The language

An endpoint has one reading only.  A hostname may not have a colon in it, so the first colon
is where the port begins; and without one, the text is a port if it is a number and a
hostname if it is not.
-/

/-- The digits of a number, and nothing else. -/
structure Written (s : Bytes) (n : Nat) : Prop where
  nonempty : s ≠ []
  digits : ∀ c ∈ s, isDigit c = true
  value : decimal s = n

/-- A number that a port can be. -/
structure IsPort (s : Bytes) (n : Nat) : Prop where
  written : Written s n
  fits : FitsInt n

/-- What an endpoint stands for; nothing where it has no meaning. -/
inductive Means (defaultHostname : Bytes) (defaultPort : Int) :
    Bytes → Option (Bytes × Int) → Prop
  | defaults : Means defaultHostname defaultPort [] (some (defaultHostname, defaultPort))
  | port {s : Bytes} {n : Nat} (hcolon : ':'.toUInt8 ∉ s) (hport : IsPort s n) :
      Means defaultHostname defaultPort s (some (defaultHostname, n))
  | hostname {s : Bytes} (hcolon : ':'.toUInt8 ∉ s) (hne : s ≠ []) (hport : ∀ n, ¬ IsPort s n) :
      Means defaultHostname defaultPort s (some (s, defaultPort))
  | bareColon {h : Bytes} (hcolon : ':'.toUInt8 ∉ h) :
      Means defaultHostname defaultPort (h ++ [':'.toUInt8]) (some (h, defaultPort))
  | both {h s : Bytes} {n : Nat} (hcolon : ':'.toUInt8 ∉ h) (hport : IsPort s n) :
      Means defaultHostname defaultPort (h ++ ':'.toUInt8 :: s) (some (h, n))
  | bad {h s : Bytes} (hcolon : ':'.toUInt8 ∉ h) (hne : s ≠ []) (hport : ∀ n, ¬ IsPort s n) :
      Means defaultHostname defaultPort (h ++ ':'.toUInt8 :: s) none

/-- Where a port can stand: after the first colon, or everywhere if there is none. -/
def portText (s : Bytes) : Bytes :=
  if ':'.toUInt8 ∈ s then (s.dropWhile (· ≠ ':'.toUInt8)).drop 1 else s

/-- A number that fits a `long` but not an `int`, and is not negative once it is cut. -/
def Truncated (s : Bytes) : Prop :=
  ∃ n, Written s n ∧ 2 ^ 31 ≤ n ∧ n < 2 ^ 63 ∧ n % 2 ^ 32 < 2 ^ 31

theorem portText_of_not_mem {s : Bytes} (h : ':'.toUInt8 ∉ s) : portText s = s := if_neg h

theorem portText_append {h : Bytes} (hcolon : ':'.toUInt8 ∉ h) (s : Bytes) :
    portText (h ++ ':'.toUInt8 :: s) = s := by
  have hrun : ∀ c ∈ h, decide (c ≠ ':'.toUInt8) = true := by
    intro c hc
    exact decide_eq_true fun heq => hcolon (heq ▸ hc)
  unfold portText
  rw [if_pos (by simp), dropWhile_run hrun (ends_cons (by simp) s)]
  rfl

theorem isDigit_colon : isDigit ':'.toUInt8 = false := by decide

theorem Written.not_mem {s : Bytes} {n : Nat} (h : Written s n) : ':'.toUInt8 ∉ s :=
  fun hmem => ne_of_isDigit (h.digits _ hmem) isDigit_colon rfl

theorem Written.unique {s : Bytes} {m n : Nat} (hm : Written s m) (hn : Written s n) : m = n :=
  hm.value.symm.trans hn.value

theorem written_digitsOf (n : Nat) : Written (digitsOf n) n :=
  ⟨digitsOf_ne_nil n, isDigit_digitsOf n, decimal_digitsOf n⟩

/-! ### The number that is read -/

/-- Digits are read to their end; what is read is a `long`, put into an `int`. -/
theorem parseInteger_written {s : Bytes} {n : Nat} (h : Written s n) :
    parseInteger s = wrapInt (clampLong n) := by
  obtain ⟨hne, hdigits, rfl⟩ := h
  have hread := readNumber_append (numeral_of_digits hne hdigits) (ends_nil isDigit)
  rw [List.append_nil] at hread
  have hhead : s.head?.any isDigit = true := by
    obtain ⟨c, s, rfl⟩ := List.exists_cons_of_ne_nil hne
    exact hdigits c (by simp)
  unfold parseInteger
  rw [if_neg (by simp [hhead]), strtol_eq, hread]
  rfl

theorem written_of_parseInteger {s : Bytes} (h : parseInteger s ≠ -1) :
    Written s (decimal s) := by
  unfold parseInteger at h
  by_cases hhead : s.head?.any isDigit = true
  · rw [if_neg (by simp [hhead])] at h
    have hne : s.takeWhile isDigit ≠ [] := by
      cases s with
      | nil => exact absurd hhead (by simp)
      | cons c s =>
          have hc : isDigit c = true := hhead
          simp [hc]
    have hdigits : ∀ c ∈ s.takeWhile isDigit, isDigit c = true :=
      fun c hc => List.mem_takeWhile_imp hc
    have hread := readNumber_append (numeral_of_digits hne hdigits) (ends_dropWhile isDigit s)
    rw [List.takeWhile_append_dropWhile] at hread
    rw [strtol_eq, hread] at h
    have hrest : s.dropWhile isDigit = [] := by
      by_contra hmore
      exact h (if_neg hmore)
    have hall := List.takeWhile_append_dropWhile (p := isDigit) (l := s)
    rw [hrest, List.append_nil] at hall
    rw [hall] at hne hdigits
    exact ⟨hne, hdigits, rfl⟩
  · rw [if_pos hhead] at h
    exact absurd rfl h

theorem IsPort.parseInteger {s : Bytes} {n : Nat} (h : IsPort s n) : parseInteger s = n := by
  obtain ⟨hwritten, hfits⟩ := h
  have hclamp : clampLong n = n := by
    obtain ⟨hlow, hhigh⟩ := hfits
    unfold clampLong
    omega
  rw [parseInteger_written hwritten, hclamp, wrapInt_of_fits hfits]

theorem wrapInt_nonneg_iff (n : Nat) : 0 ≤ wrapInt n ↔ n % 2 ^ 32 < 2 ^ 31 := by
  have hhalf : ((2 ^ 32 : Nat) + 1 : Int) / 2 = 2 ^ 31 := by decide
  have hcast : (n : Int) % (2 ^ 32 : Nat) = (n % 2 ^ 32 : Nat) := rfl
  unfold wrapInt Int.bmod
  simp only [hhalf, hcast]
  by_cases hlow : ((n % 2 ^ 32 : Nat) : Int) < 2 ^ 31
  · rw [if_pos hlow]
    omega
  · rw [if_neg hlow]
    omega

/-- A number too large for a port is one of the language of those that are cut, or refused. -/
theorem truncated_iff {s : Bytes} {n : Nat} (h : Written s n) (hlarge : ¬ FitsInt n) :
    Truncated s ↔ 0 ≤ parseInteger s := by
  have hn : 2 ^ 31 ≤ n := by
    unfold FitsInt at hlarge
    omega
  rw [parseInteger_written h]
  constructor
  · rintro ⟨m, hm, -, hlong, hcut⟩
    rw [hm.unique h] at hlong hcut
    have hclamp : clampLong n = n := by
      unfold clampLong
      omega
    rw [hclamp]
    exact (wrapInt_nonneg_iff n).mpr hcut
  · intro hcut
    refine ⟨n, h, hn, ?_⟩
    by_cases hlong : n < 2 ^ 63
    · have hclamp : clampLong n = n := by
        unfold clampLong
        omega
      rw [hclamp] at hcut
      exact ⟨hlong, (wrapInt_nonneg_iff n).mp hcut⟩
    · have hclamp : clampLong n = 2 ^ 63 - 1 := by
        unfold clampLong
        omega
      rw [hclamp] at hcut
      exact absurd hcut (by decide)

/-- **What is read is a port, unless the number was cut.** -/
theorem isPort_of_parseInteger {s : Bytes} (hwhole : ¬ Truncated s) (h : 0 ≤ parseInteger s) :
    IsPort s (decimal s) := by
  have hwritten := written_of_parseInteger (s := s) (by omega)
  refine ⟨hwritten, ?_⟩
  by_contra hlarge
  exact hwhole ((truncated_iff hwritten hlarge).mpr h)

/-! ### The two sides of the colon -/

theorem parseEndpoint_of_not_mem {s : Bytes} (hnul : 0 ∉ s) (hcolon : ':'.toUInt8 ∉ s)
    (defaultHostname : Bytes) (defaultPort : Int) :
    parseEndpoint s defaultHostname defaultPort =
      if 0 ≤ parseInteger s then .ok (defaultHostname, parseInteger s)
      else if s ≠ [] then .ok (s, defaultPort)
      else .ok (defaultHostname, defaultPort) := by
  have hnone : s.findIdx? (· = ':'.toUInt8) = none := by
    rw [List.findIdx?_eq_none_iff]
    intro c hc
    exact decide_eq_false fun heq => hcolon (heq ▸ hc)
  unfold parseEndpoint
  simp only [cStr_of_noNul hnul, hnone]

theorem parseEndpoint_append {h s : Bytes} (hnul : 0 ∉ h ++ ':'.toUInt8 :: s)
    (hcolon : ':'.toUInt8 ∉ h) (defaultHostname : Bytes) (defaultPort : Int) :
    parseEndpoint (h ++ ':'.toUInt8 :: s) defaultHostname defaultPort =
      if s ≠ [] then
        if 0 ≤ parseInteger s then .ok (h, parseInteger s)
        else .error (bytes "Bad port " ++ s ++ bytes " in endpoint "
          ++ (h ++ ':'.toUInt8 :: s) ++ bytes "\n")
      else .ok (h, defaultPort) := by
  have hsome : (h ++ ':'.toUInt8 :: s).findIdx? (· = ':'.toUInt8) = some h.length := by
    rw [List.findIdx?_eq_some_iff_getElem]
    refine ⟨by simp, by simp, ?_⟩
    intro i hi
    rw [List.getElem_append_left hi]
    have hne : h[i] ≠ ':'.toUInt8 := fun heq => hcolon (heq ▸ List.getElem_mem hi)
    simpa using hne
  have hrest : (h ++ ':'.toUInt8 :: s).drop (h.length + 1) = s := by
    rw [List.drop_append]
    simp
  unfold parseEndpoint
  simp only [cStr_of_noNul hnul, hsome, List.take_left, hrest]

/-- Where no number is cut, the parser says what the string means. -/
theorem means_parseEndpoint {s : Bytes} (hnul : 0 ∉ s) (hwhole : ¬ Truncated (portText s))
    (defaultHostname : Bytes) (defaultPort : Int) :
    Means defaultHostname defaultPort s
      (parseEndpoint s defaultHostname defaultPort).toOption := by
  by_cases hcolon : ':'.toUInt8 ∈ s
  · obtain ⟨h, t, rfl, hfirst⟩ := List.eq_append_cons_of_mem hcolon
    rw [portText_append hfirst] at hwhole
    rw [parseEndpoint_append hnul hfirst]
    by_cases hne : t ≠ []
    · rw [if_pos hne]
      by_cases hread : 0 ≤ parseInteger t
      · have hport := isPort_of_parseInteger hwhole hread
        rw [if_pos hread, hport.parseInteger]
        exact .both hfirst hport
      · rw [if_neg hread]
        refine .bad hfirst hne fun n hport => ?_
        rw [hport.parseInteger] at hread
        omega
    · rw [if_neg hne, not_not.mp hne]
      exact .bareColon hfirst
  · rw [portText_of_not_mem hcolon] at hwhole
    rw [parseEndpoint_of_not_mem hnul hcolon]
    by_cases hread : 0 ≤ parseInteger s
    · have hport := isPort_of_parseInteger hwhole hread
      rw [if_pos hread, hport.parseInteger]
      exact .port hcolon hport
    · rw [if_neg hread]
      by_cases hne : s ≠ []
      · rw [if_pos hne]
        refine .hostname hcolon hne fun n hport => ?_
        rw [hport.parseInteger] at hread
        omega
      · rw [if_neg hne, not_not.mp hne]
        exact .defaults

/-- The port is the default or the number that is written. -/
theorem Means.port_eq {defaultHostname s host : Bytes} {defaultPort port : Int}
    (h : Means defaultHostname defaultPort s (some (host, port))) :
    port = defaultPort ∨ ∃ n, IsPort (portText s) n ∧ port = n := by
  cases h with
  | defaults => exact Or.inl rfl
  | port hcolon hport =>
      rw [portText_of_not_mem hcolon]
      exact Or.inr ⟨_, hport, rfl⟩
  | hostname => exact Or.inl rfl
  | bareColon => exact Or.inl rfl
  | both hcolon hport =>
      rw [portText_append hcolon]
      exact Or.inr ⟨_, hport, rfl⟩

theorem parseEndpoint_truncated {s : Bytes} (hnul : 0 ∉ s) (hcut : Truncated (portText s))
    (defaultHostname : Bytes) (defaultPort : Int) :
    ∃ host port, parseEndpoint s defaultHostname defaultPort = .ok (host, port) ∧ 0 ≤ port := by
  have hread : 0 ≤ parseInteger (portText s) := by
    obtain ⟨n, hwritten, hlarge, hrest⟩ := hcut
    have hfits : ¬ FitsInt n := by
      unfold FitsInt
      omega
    exact (truncated_iff hwritten hfits).mp ⟨n, hwritten, hlarge, hrest⟩
  by_cases hcolon : ':'.toUInt8 ∈ s
  · obtain ⟨h, t, rfl, hfirst⟩ := List.eq_append_cons_of_mem hcolon
    rw [portText_append hfirst] at hcut hread
    obtain ⟨n, hwritten, -⟩ := hcut
    rw [parseEndpoint_append hnul hfirst, if_pos hwritten.nonempty, if_pos hread]
    exact ⟨_, _, rfl, hread⟩
  · rw [portText_of_not_mem hcolon] at hread
    rw [parseEndpoint_of_not_mem hnul hcolon, if_pos hread]
    exact ⟨_, _, rfl, hread⟩

/-- A hostname and a port that are put together come apart again. -/
theorem parseEndpoint_digitsOf {h : Bytes} {p : Nat} (hnul : 0 ∉ h ++ ':'.toUInt8 :: digitsOf p)
    (hcolon : ':'.toUInt8 ∉ h) (hp : p ≤ 65535) (defaultHostname : Bytes) (defaultPort : Int) :
    parseEndpoint (h ++ ':'.toUInt8 :: digitsOf p) defaultHostname defaultPort = .ok (h, p) := by
  have hport : IsPort (digitsOf p) p := by
    refine ⟨written_digitsOf p, ?_⟩
    unfold FitsInt
    omega
  rw [parseEndpoint_append hnul hcolon, if_pos (digitsOf_ne_nil p), hport.parseInteger,
    if_pos (by omega)]

/--
**A string is taken for what it means, whatever the defaults, if and only if no number
is cut.**  Then a hostname and a port come apart as they were put together, and the port
is never one that nobody asked for.
-/
theorem parseEndpoint_means_iff (s : Bytes) (hnul : 0 ∉ s) :
    (∀ (defaultHostname : Bytes) (defaultPort : Int),
      Means defaultHostname defaultPort s
        (parseEndpoint s defaultHostname defaultPort).toOption ∧
      (∀ (h : Bytes) (p : Nat), ':'.toUInt8 ∉ h → p ≤ 65535 →
        s = h ++ ':'.toUInt8 :: digitsOf p →
          parseEndpoint s defaultHostname defaultPort = .ok (h, p)) ∧
      ∀ (host : Bytes) (port : Int),
        parseEndpoint s defaultHostname defaultPort = .ok (host, port) →
          port = defaultPort ∨ ∃ n : Nat, Written (portText s) n ∧ port = n) ↔
      ¬ Truncated (portText s) := by
  constructor
  · intro h hcut
    -- a port that is not the default and was not written
    obtain ⟨host, port, hread, hnonneg⟩ := parseEndpoint_truncated hnul hcut [] (-1)
    have hmeans := (h [] (-1)).1
    rw [hread] at hmeans
    obtain ⟨n, hwritten, hlarge, -⟩ := hcut
    rcases hmeans.port_eq with hdefault | ⟨m, hport, -⟩
    · omega
    · obtain ⟨-, hhigh⟩ := hport.fits
      have hsame := hport.written.unique hwritten
      omega
  · intro hwhole defaultHostname defaultPort
    have hmeans := means_parseEndpoint hnul hwhole defaultHostname defaultPort
    refine ⟨hmeans, ?_, ?_⟩
    · rintro h p hcolon hp rfl
      exact parseEndpoint_digitsOf hnul hcolon hp _ _
    · intro host port hread
      rw [hread] at hmeans
      rcases hmeans.port_eq with hdefault | ⟨n, hport, hn⟩
      · exact Or.inl hdefault
      · exact Or.inr ⟨n, hport.written, hn⟩

/-- The largest port that an `int` holds is no number that is cut. -/
theorem parseEndpoint_means_largest :
    Means [] 1120 (bytes "h:2147483647")
      (parseEndpoint (bytes "h:2147483647") [] 1120).toOption := by
  have hport : IsPort (portText (bytes "h:2147483647")) 2147483647 :=
    ⟨⟨by decide, List.all_eq_true.mp (by decide), by decide⟩, by decide⟩
  have hwhole : ¬ Truncated (portText (bytes "h:2147483647")) := by
    rintro ⟨n, hn, hlarge, -⟩
    have hsame := hport.written.unique hn
    omega
  exact ((parseEndpoint_means_iff (bytes "h:2147483647") (by decide)).mpr hwhole [] 1120).1

/-- The number after the largest that 32 bits can tell apart is taken for port 1. -/
theorem not_means_of_truncated :
    ¬ ∀ (s : Bytes), 0 ∉ s → ∀ (defaultHostname : Bytes) (defaultPort : Int),
      Means defaultHostname defaultPort s
        (parseEndpoint s defaultHostname defaultPort).toOption := by
  intro h
  have hread : parseEndpoint (bytes "h:4294967297") [] 1120 = .ok (bytes "h", 1) := by decide
  have hmeans := h (bytes "h:4294967297") (by decide) [] 1120
  rw [hread] at hmeans
  rcases hmeans.port_eq with hdefault | ⟨n, hport, hn⟩
  · exact absurd hdefault (by decide)
  · have hwritten : Written (portText (bytes "h:4294967297")) 4294967297 :=
      ⟨by decide, List.all_eq_true.mp (by decide), by decide⟩
    have hsame := hport.written.unique hwritten
    omega

end Distray
