import TitCo.Binary64
import TitCo.IntegerText

/-! formatSI and formatIEC of stream.cc: an integer of 64 bits with a few digits and a unit. -/
namespace TitCo.ShortForm
open Binary64 Decimal IntegerText

abbrev Bytes := List UInt8

/-- What one branch prints: `digits` places behind the point of a quotient by `unit`, and the unit's letters. -/
structure Form where
  digits : Nat
  unit : ℚ
  suffix : Bytes

/-- A number of `digits` decimal places, given in units of the last one. -/
def shown (digits k : Nat) : Bytes :=
  decimal (k / 10^digits) ++ if digits = 0 then [] else 46 :: zeroPadded digits (k % 10^digits)

/-- The digits that %.*f writes for the double n/unit. -/
def Form.places (f : Form) (n : ℚ) : Nat := (nearest (double (n / f.unit) * 10^f.digits)).toNat

/-- A chain of branches, each with the number it is taken below. -/
def choose (x : ℚ) (last : Form) : List (ℚ × Form) → Form
  | [] => last
  | (bound,f)::rest => if x < bound then f else choose x last rest

structure Scale where
  test : Int → ℚ
  forms : List (ℚ × Form)
  last : Form
  testMono : ∀ s t, 0 < s → s ≤ t → test s ≤ test t
  sound : ∀ f ∈ last :: forms.map Prod.snd, 0 < f.unit ∧ f.digits ≤ 2

def Scale.form (c : Scale) (s : Int) : Form := choose (c.test s) c.last c.forms

/-- The number printed, in units of its last place. -/
def Scale.mantissa (c : Scale) (s : Int) : Nat := (c.form s).places (double s)

def Scale.text (c : Scale) (s : Int) : Bytes := shown (c.form s).digits (c.mantissa s) ++ (c.form s).suffix

def siForms : List (ℚ × Form) :=
  [(9995,⟨2,10^3,[107]⟩),(99950,⟨1,10^3,[107]⟩),(999500,⟨0,10^3,[107]⟩),
   (9995000,⟨2,10^6,[77]⟩),(99950000,⟨1,10^6,[77]⟩),(999500000,⟨0,10^6,[77]⟩),
   (9995000000,⟨2,10^9,[71]⟩),(99950000000,⟨1,10^9,[71]⟩),(999500000000,⟨0,10^9,[71]⟩),
   (9995000000000,⟨2,10^12,[84]⟩),(99950000000000,⟨1,10^12,[84]⟩),(999500000000000,⟨0,10^12,[84]⟩),
   (9995000000000000,⟨2,10^15,[80]⟩),(99950000000000000,⟨1,10^15,[80]⟩),(999500000000000000,⟨0,10^15,[80]⟩)]

def siLast : Form := ⟨2,10^18,[69]⟩

theorem integerMono (s t : Int) (_ : 0 < s) (le : s ≤ t) : (s:ℚ) ≤ t := by exact_mod_cast le

theorem siSound : ∀ f ∈ siLast :: siForms.map Prod.snd, 0 < f.unit ∧ f.digits ≤ 2 := by decide +kernel

/-- The branches compare the integer. -/
def si : Scale := ⟨fun s => s,siForms,siLast,integerMono,siSound⟩

def formatSI (s : Int) : Bytes := if s < 1000 then signedDecimal s else si.text s

def ki : ℚ := 1024
def mi : ℚ := ki * 1024
def gi : ℚ := mi * 1024
def ti : ℚ := gi * 1024
def pi : ℚ := ti * 1024
def ei : ℚ := pi * 1024

/-- A unit times a literal of the source. -/
def times (unit literal : ℚ) : ℚ := double (unit * double literal)

def iecForms : List (ℚ × Form) :=
  [(times ki 9.995,⟨2,ki,[75,105]⟩),(times ki 99.95,⟨1,ki,[75,105]⟩),(times ki 1023.5,⟨0,ki,[75,105]⟩),
   (times mi 9.995,⟨2,mi,[77,105]⟩),(times mi 99.95,⟨1,mi,[77,105]⟩),(times mi 1023.5,⟨0,mi,[77,105]⟩),
   (times gi 9.995,⟨2,gi,[71,105]⟩),(times gi 99.95,⟨1,gi,[71,105]⟩),(times gi 1023.5,⟨0,gi,[71,105]⟩),
   (times ti 9.995,⟨2,ti,[84,105]⟩),(times ti 99.95,⟨1,ti,[84,105]⟩),(times ti 1023.5,⟨0,ti,[84,105]⟩),
   (times pi 9.995,⟨2,pi,[80,105]⟩),(times pi 99.95,⟨1,pi,[80,105]⟩),(times pi 1023.5,⟨0,pi,[80,105]⟩),
   (times ei 9.995,⟨2,ei,[69,105]⟩)]

def iecLast : Form := ⟨1,ei,[69,105]⟩

theorem numberMono (s t : Int) (positive : 0 < s) (le : s ≤ t) : double s ≤ double t :=
  doubleMono (by exact_mod_cast positive) (by exact_mod_cast le)

theorem iecSound : ∀ f ∈ iecLast :: iecForms.map Prod.snd, 0 < f.unit ∧ f.digits ≤ 2 := by decide +kernel

/-- The branches compare the double. -/
def iec : Scale := ⟨fun s => double s,iecForms,iecLast,numberMono,iecSound⟩

def formatIEC (s : Int) : Bytes := if double s < ki then signedDecimal s else iec.text s

section
variable {c : Scale}

theorem chosen (x : ℚ) (last : Form) (forms : List (ℚ × Form)) :
    choose x last forms ∈ last :: forms.map Prod.snd := by
  induction forms with
  | nil => exact List.mem_cons_self
  | cons row rest ih =>
    rw [choose]
    split
    · simp
    · rcases List.mem_cons.mp ih with same | inRest
      · rw [same]
        exact List.mem_cons_self
      · exact List.mem_cons_of_mem _ (List.mem_cons_of_mem _ inRest)

theorem unitPos (s : Int) : 0 < (c.form s).unit := (c.sound _ (chosen _ _ _)).1

theorem fewDigits (s : Int) : (c.form s).digits ≤ 2 := (c.sound _ (chosen _ _ _)).2

/- Bounds that all lie outside a stretch choose one branch on it. -/
theorem chooseSame {last : Form} {forms : List (ℚ × Form)} {low high x : ℚ} (inside : low ≤ x ∧ x ≤ high)
    (apart : ∀ row ∈ forms, row.1 ≤ low ∨ high < row.1) : choose x last forms = choose low last forms := by
  induction forms with
  | nil => rfl
  | cons row rest ih =>
    have side := apart row List.mem_cons_self
    have tail := ih fun r inRest => apart r (List.mem_cons_of_mem _ inRest)
    rw [choose,choose,tail]
    rcases side with below | above
    · rw [if_neg (not_lt.2 (below.trans inside.1)),if_neg (not_lt.2 below)]
    · rw [if_pos (inside.2.trans_lt above),if_pos ((inside.1.trans inside.2).trans_lt above)]

theorem placesMono {f : Form} {s t : Int} (unit : 0 < f.unit) (positive : 0 < s) (le : s ≤ t) :
    f.places (double s) ≤ f.places (double t) := by
  have whole : (0:ℚ) < s := by exact_mod_cast positive
  have numbers := doubleMono whole (by exact_mod_cast le : (s:ℚ) ≤ t)
  have quotients := doubleMono (div_pos (doublePos whole) unit) (div_le_div_of_nonneg_right numbers unit.le)
  exact Int.toNat_le_toNat (nearestMono (mul_le_mul_of_nonneg_right quotients (by positivity)))

/-- No bound between two numbers. -/
def Scale.Apart (c : Scale) (a b : Int) : Prop := ∀ row ∈ c.forms, row.1 ≤ c.test a ∨ c.test b < row.1

instance (a b : Int) : Decidable (c.Apart a b) := inferInstanceAs (Decidable (∀ row ∈ c.forms, _))

/- There the printed number lies between those of the two. -/
theorem stretch {a b s : Int} (positive : 0 < a) (inside : a ≤ s ∧ s ≤ b) (apart : c.Apart a b) :
    c.form s = c.form a ∧ c.mantissa a ≤ c.mantissa s ∧ c.mantissa s ≤ c.mantissa b := by
  have low := c.testMono a s positive inside.1
  have high := c.testMono s b (by omega) inside.2
  have form : c.form s = c.form a := chooseSame ⟨low,high⟩ apart
  have last : c.form b = c.form a := chooseSame ⟨low.trans high,le_refl _⟩ apart
  refine ⟨form,?_,?_⟩
  · rw [Scale.mantissa,Scale.mantissa,form]
    exact placesMono (unitPos a) positive inside.1
  · rw [Scale.mantissa,Scale.mantissa,form,last]
    exact placesMono (unitPos a) (by omega) inside.2

/- The roundings of the number and of its quotient. -/
theorem quotientNear {s : Int} {unit : ℚ} (pos : 0 < unit) (positive : 0 < s) :
    |double (double s / unit) - s/unit| ≤ (s/unit)/2^51 := by
  have whole : (0:ℚ) < s := by exact_mod_cast positive
  have number : |double s / unit - s/unit| ≤ (s/unit)/2^53 := by
    rw [← sub_div,abs_div,abs_of_pos pos,div_right_comm]
    exact div_le_div_of_nonneg_right (doubleNear whole) pos.le
  have quotient := doubleNear (div_pos (doublePos whole) pos)
  have ratio := div_pos whole pos
  rw [abs_le] at number quotient ⊢
  constructor <;> linarith

/- The digits are the nearest to the quotient. -/
theorem placesNear {f : Form} {s : Int} (pos : 0 < f.unit) (positive : 0 < s) :
    |(f.places (double s) : ℚ) - s/f.unit*10^f.digits| ≤ 1/2 + (s/f.unit*10^f.digits)/2^51 := by
  have whole : (0:ℚ) < s := by exact_mod_cast positive
  have quotient := doublePos (div_pos (doublePos whole) pos)
  have nonnegative : 0 ≤ nearest (double (double s / f.unit) * 10^f.digits) := by
    rw [← nearestInt 0]
    exact nearestMono (by push_cast; positivity)
  have places : (f.places (double s) : ℚ) = nearest (double (double s / f.unit) * 10^f.digits) := by
    rw [Form.places]
    exact_mod_cast Int.toNat_of_nonneg nonnegative
  have digits := nearestNear (double (double s / f.unit) * 10^f.digits)
  have scaled : |double (double s / f.unit) * 10^f.digits - s/f.unit*10^f.digits| ≤
      (s/f.unit*10^f.digits)/2^51 := by
    rw [← sub_mul,abs_mul,abs_of_pos (by positivity : (0:ℚ) < 10^f.digits),mul_div_right_comm]
    exact mul_le_mul_of_nonneg_right (quotientNear pos positive) (by positivity)
  rw [places]
  exact (abs_sub_le _ _ _).trans (add_le_add digits scaled)

theorem shownShort {digits k : Nat} (few : digits ≤ 2) (small : k < 1000 ∨ digits = 0 ∧ k < 10000) :
    (shown digits k).length ≤ 4 := by
  obtain rfl | rfl | rfl : digits = 0 ∨ digits = 1 ∨ digits = 2 := by omega
  · have whole : (decimal (k / 10^0)).length ≤ 4 := decimalLength (by decide) (by omega)
    rw [shown,if_pos rfl,List.append_nil]
    exact whole
  · have whole : (decimal (k / 10^1)).length ≤ 2 := decimalLength (by decide) (by omega)
    have part := zeroPaddedLength (k % 10^1) 1 (by decide) (Nat.mod_lt _ (by decide))
    rw [shown,if_neg (by decide),List.length_append,List.length_cons]
    omega
  · have whole : (decimal (k / 10^2)).length ≤ 1 := decimalLength (by decide) (by omega)
    have part := zeroPaddedLength (k % 10^2) 2 (by decide) (Nat.mod_lt _ (by decide))
    rw [shown,if_neg (by decide),List.length_append,List.length_cons]
    omega

/- The error of the two roundings is far below half a unit of the last digit. -/
theorem mantissaNear {s : Int} (positive : 0 < s) (small : c.mantissa s ≤ 1023) :
    |(c.mantissa s : ℚ) - s/(c.form s).unit*10^(c.form s).digits| ≤ 1/2 + 1/10^12 := by
  have near := placesNear (unitPos (c := c) s) positive
  change |(c.mantissa s : ℚ) - _| ≤ _ at near
  have top : (c.mantissa s : ℚ) ≤ 1023 := by exact_mod_cast small
  rw [abs_le] at near ⊢
  constructor <;> linarith

/- Below the first unit the number itself is printed. -/
theorem smallShort (width : Nat) {s : Int} (some : 0 < width) (low : 0 ≤ s) (small : s < (10^width : Nat)) :
    (signedDecimal s).length ≤ width := by
  rw [signedDecimal,if_neg (by omega)]
  exact decimalLength some (by omega)

end

/-- The last eight numbers of the branch of 99.9P and the last sixty-four of that of 999P: the double
nearest to them is the branch's bound. -/
def RoundsUp (s : Int) : Prop :=
  99949999999999992 ≤ s ∧ s < 99950000000000000 ∨ 999499999999999936 ≤ s ∧ s < 999500000000000000

/- The other stretches on which formatSI takes one branch, by their first and last numbers. -/
def siPlain : List (Int × Int) :=
  [(1000,9994),(9995,99949),(99950,999499),(999500,9994999),(9995000,99949999),(99950000,999499999),
   (999500000,9994999999),(9995000000,99949999999),(99950000000,999499999999),
   (999500000000,9994999999999),(9995000000000,99949999999999),(99950000000000,999499999999999),
   (999500000000000,9994999999999999),(9995000000000000,99949999999999991),
   (99950000000000000,999499999999999935),(999500000000000000,9223372036854775807)]

theorem siCovers {s : Int} (low : 1000 ≤ s) (high : s < 2^63) (exact : ¬RoundsUp s) :
    ∃ r ∈ siPlain, r.1 ≤ s ∧ s ≤ r.2 := by
  simp only [siPlain,List.exists_mem_cons_iff,List.not_mem_nil]
  unfold RoundsUp at exact
  omega

theorem threeDigits {s : Int} (low : 1000 ≤ s) (high : s < 2^63) (exact : ¬RoundsUp s) :
    100 ≤ si.mantissa s ∧ si.mantissa s ≤ 999 := by
  have ends : ∀ r ∈ siPlain, 0 < r.1 ∧ si.Apart r.1 r.2 ∧ 100 ≤ si.mantissa r.1 ∧ si.mantissa r.2 ≤ 999 := by
    decide +kernel
  obtain ⟨r,member,inside⟩ := siCovers low high exact
  obtain ⟨positive,apart,first,last⟩ := ends r member
  have between := (stretch positive inside apart).2
  omega

theorem fourDigits {s : Int} (up : RoundsUp s) :
    si.mantissa s = 1000 ∧ (si.form s).digits = if s < 99950000000000000 then 1 else 0 := by
  have tenths : si.mantissa 99949999999999992 = 1000 ∧ si.mantissa 99949999999999999 = 1000 ∧
      (si.form 99949999999999992).digits = 1 ∧ si.Apart 99949999999999992 99949999999999999 := by decide +kernel
  have units : si.mantissa 999499999999999936 = 1000 ∧ si.mantissa 999499999999999999 = 1000 ∧
      (si.form 999499999999999936).digits = 0 ∧ si.Apart 999499999999999936 999499999999999999 := by decide +kernel
  rcases up with inside | inside
  · obtain ⟨form,lower,upper⟩ := stretch (by decide) ⟨inside.1,by omega⟩ tenths.2.2.2
    rw [form,if_pos inside.2]
    omega
  · obtain ⟨form,lower,upper⟩ := stretch (by decide) ⟨inside.1,by omega⟩ units.2.2.2
    rw [form,if_neg (by omega)]
    omega

theorem siLetter (s : Int) : (si.form s).suffix.length = 1 := by
  have all : ∀ f ∈ siLast :: siForms.map Prod.snd, f.suffix.length = 1 := by decide
  exact all _ (chosen _ _ _)

theorem formatLength {s : Int} (low : 0 ≤ s) (high : s < 2^63) :
    (formatSI s).length ≤ 5 ↔ ¬(99949999999999992 ≤ s ∧ s < 99950000000000000) := by
  by_cases small : s < 1000
  · have short := smallShort 3 (by decide) low (by omega)
    rw [formatSI,if_pos small]
    omega
  rw [formatSI,if_neg small,Scale.text,List.length_append,siLetter]
  by_cases up : RoundsUp s
  · obtain ⟨thousand,digits⟩ := fourDigits up
    rw [thousand]
    by_cases below : s < 99950000000000000
    · have long : (shown 1 1000).length = 5 := by decide
      rw [digits,if_pos below,long]
      unfold RoundsUp at up
      omega
    · rw [if_neg below] at digits
      have short := shownShort (fewDigits (c := si) s) (Or.inr ⟨digits,(by decide : 1000 < 10000)⟩)
      omega
  · have three := (threeDigits (by omega) high up).2
    have short := shownShort (fewDigits (c := si) s) (Or.inl (by omega : si.mantissa s < 1000))
    unfold RoundsUp at up
    omega

theorem siFaithful {s : Int} (low : 0 ≤ s) (high : s < 2^63) :
    ((formatSI s).length ≤ 5 ↔ ¬(99949999999999992 ≤ s ∧ s < 99950000000000000)) ∧
    (1000 ≤ s → formatSI s = shown (si.form s).digits (si.mantissa s) ++ (si.form s).suffix ∧
      (100 ≤ si.mantissa s ∧ si.mantissa s ≤ 999 ↔ ¬RoundsUp s) ∧
      |(si.mantissa s : ℚ) - s/(si.form s).unit*10^(si.form s).digits| ≤ 1/2 + 1/10^12) := by
  refine ⟨formatLength low high,fun large => ?_⟩
  have some : 0 < s := by omega
  by_cases up : RoundsUp s
  · have thousand := (fourDigits up).1
    exact ⟨if_neg (by omega),⟨fun three => by omega,fun exact => absurd up exact⟩,mantissaNear some (by omega)⟩
  · have three := threeDigits large high up
    exact ⟨if_neg (by omega),⟨fun _ => up,fun _ => three⟩,mantissaNear some (by omega)⟩

theorem siFaithfulPeta : (formatSI 99949999999999991).length ≤ 5 ∧ ¬(formatSI 99949999999999992).length ≤ 5 ∧
    100 ≤ si.mantissa 999499999999999935 ∧ si.mantissa 999499999999999935 ≤ 999 :=
  ⟨(siFaithful (by decide) (by decide)).1.2 (by decide),
    fun short => (siFaithful (by decide) (by decide)).1.1 short (by decide),
    ((siFaithful (by decide) (by decide)).2 (by decide)).2.1.2 (by unfold RoundsUp; decide)⟩

example : formatSI 9994 = [57,46,57,57,107] := by decide +kernel

/- The stretches on which formatIEC takes one branch, by their first and last numbers. -/
def iecPlain : List (Int × Int) :=
  [(1024,10234),(10235,102348),(102349,1048063),(1048064,10480517),(10480518,104805171),(104805172,1073217535),
   (1073217536,10732049530),(10732049531,107320495308),(107320495309,1098974756863),
   (1098974756864,10989618719621),(10989618719622,109896187196211),(109896187196212,1125350151028735),
   (1125350151028736,11253369568892025),(11253369568892026,112533695688920264),
   (112533695688920265,1152358554653425599),(1152358554653425600,9223372036854775807)]

theorem iecDigits {s : Int} (low : 1024 ≤ s) (high : s < 2^63) :
    100 ≤ iec.mantissa s ∧ (iec.mantissa s ≤ 999 ∨ (iec.form s).digits = 0 ∧ iec.mantissa s ≤ 1023) := by
  have ends : ∀ r ∈ iecPlain, 0 < r.1 ∧ iec.Apart r.1 r.2 ∧ 100 ≤ iec.mantissa r.1 ∧
      (iec.mantissa r.2 ≤ 999 ∨ (iec.form r.1).digits = 0 ∧ iec.mantissa r.2 ≤ 1023) := by decide +kernel
  have covers : ∃ r ∈ iecPlain, r.1 ≤ s ∧ s ≤ r.2 := by
    simp only [iecPlain,List.exists_mem_cons_iff,List.not_mem_nil]
    omega
  obtain ⟨r,member,inside⟩ := covers
  obtain ⟨positive,apart,first,last⟩ := ends r member
  obtain ⟨form,between⟩ := stretch positive inside apart
  rw [form]
  omega

theorem iecLetters (s : Int) : (iec.form s).suffix.length = 2 := by
  have all : ∀ f ∈ iecLast :: iecForms.map Prod.snd, f.suffix.length = 2 := by decide
  exact all _ (chosen _ _ _)

theorem belowKi {s : Int} (low : 0 ≤ s) : double s < ki ↔ s < 1024 := by
  have around : double 0 < ki ∧ double 1023 < ki ∧ ki ≤ double 1024 := by decide +kernel
  constructor
  · intro below
    by_contra large
    have le := doubleMono (by norm_num : (0:ℚ) < 1024) (by exact_mod_cast not_lt.1 large : (1024:ℚ) ≤ s)
    exact absurd below (not_lt.2 (around.2.2.trans le))
  · intro small
    rcases Int.lt_or_eq_of_le low with positive | zero
    · have le := doubleMono (by exact_mod_cast positive : (0:ℚ) < s) (by exact_mod_cast (by omega) : (s:ℚ) ≤ 1023)
      exact le.trans_lt around.2.1
    · rw [← zero]
      exact around.1

theorem iecFaithful {s : Int} (low : 0 ≤ s) (high : s < 2^63) : (formatIEC s).length ≤ 6 ∧
    (1024 ≤ s → formatIEC s = shown (iec.form s).digits (iec.mantissa s) ++ (iec.form s).suffix ∧
      100 ≤ iec.mantissa s ∧ (iec.mantissa s ≤ 999 ∨ (iec.form s).digits = 0 ∧ iec.mantissa s ≤ 1023) ∧
      |(iec.mantissa s : ℚ) - s/(iec.form s).unit*10^(iec.form s).digits| ≤ 1/2 + 1/10^12) := by
  by_cases small : s < 1024
  · have short := smallShort 4 (by decide) low (by omega)
    rw [formatIEC,if_pos ((belowKi low).2 small)]
    exact ⟨by omega,fun large => absurd small (by omega)⟩
  have text : formatIEC s = iec.text s := if_neg (mt (belowKi low).1 small)
  have digits := iecDigits (by omega) high
  have short := shownShort (fewDigits (c := iec) s) (by omega : iec.mantissa s < 1000 ∨ _)
  have letters := iecLetters s
  refine ⟨?_,fun _ => ⟨text,digits.1,digits.2,mantissaNear (by omega) (by omega)⟩⟩
  rw [text,Scale.text,List.length_append]
  omega

theorem iecFaithfulPebi : (formatIEC 1152358554653425599).length ≤ 6 ∧ 100 ≤ iec.mantissa 1152358554653425599 :=
  ⟨(iecFaithful (by decide) (by decide)).1,((iecFaithful (by decide) (by decide)).2 (by decide)).2.1⟩

example : formatIEC 1047552 = [49,48,50,51,75,105] := by decide +kernel

end TitCo.ShortForm
