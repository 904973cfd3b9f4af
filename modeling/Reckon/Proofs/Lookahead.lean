import Reckon.Proofs.StatementReading

/-!
# How far a reading looks

A reading depends on the tokens it consumes and on the next one, and on nothing
behind that. A failed reading blames the token it leaves first, or the end of the
tokens. A complete statement does not depend on what follows it at all.
-/
namespace Reckon.Parse
open Grammar

theorem head?_append_congr (p : List Token) {a b : List Token} (h : b.head? = a.head?) :
    (p ++ b).head? = (p ++ a).head? := by
  cases p with
  | nil => exact h
  | cons t p => rfl

theorem Reads.lookahead {g : Goal} {ts left : List Token} {out : Except SyntaxError Expr}
    (h : Reads g ts out left) :
    ∃ p, ts = p ++ left ∧
      ∀ left', left'.head? = left.head? → Reads g (p ++ left') out left' := by
  induction h with
  | conditionFails _ ih =>
    obtain ⟨p, rfl, hp⟩ := ih
    exact ⟨p, rfl, fun l hl => .conditionFails (hp l hl)⟩
  | unconditional _ hq ih =>
    obtain ⟨p, rfl, hp⟩ := ih
    exact ⟨p, rfl, fun l hl => .unconditional (hp l hl) (hq.congr hl)⟩
  | @thenFails ts c t rest₀ x rest _ hq _ ihc iha =>
    obtain ⟨p, rfl, hp⟩ := ihc
    obtain ⟨q, rfl, ha⟩ := iha
    refine ⟨p ++ t :: q, by simp, fun l hl => ?_⟩
    simpa using Reads.thenFails (hp (t :: (q ++ l)) rfl) hq (ha l hl)
  | @colonMissing ts c t rest₀ a rest _ hq _ hk ihc iha =>
    obtain ⟨p, rfl, hp⟩ := ihc
    obtain ⟨q, rfl, ha⟩ := iha
    refine ⟨p ++ t :: q, by simp, fun l hl => ?_⟩
    rw [← blame_congr _ hl]
    simpa using Reads.colonMissing (hp (t :: (q ++ l)) rfl) hq (ha l hl) (hk.congr hl)
  | @elseFails ts c t rest₀ a u rest₁ x rest _ hq _ hu _ ihc iha ihb =>
    obtain ⟨p, rfl, hp⟩ := ihc
    obtain ⟨q, rfl, ha⟩ := iha
    obtain ⟨r, rfl, hb⟩ := ihb
    refine ⟨p ++ t :: (q ++ u :: r), by simp, fun l hl => ?_⟩
    simpa using Reads.elseFails (hp (t :: (q ++ u :: (r ++ l))) rfl) hq
      (ha (u :: (r ++ l)) rfl) hu (hb l hl)
  | @conditional ts c t rest₀ a u rest₁ b rest _ hq _ hu _ ihc iha ihb =>
    obtain ⟨p, rfl, hp⟩ := ihc
    obtain ⟨q, rfl, ha⟩ := iha
    obtain ⟨r, rfl, hb⟩ := ihb
    refine ⟨p ++ t :: (q ++ u :: r), by simp, fun l hl => ?_⟩
    simpa using Reads.conditional (hp (t :: (q ++ u :: (r ++ l))) rfl) hq
      (ha (u :: (r ++ l)) rfl) hu (hb l hl)
  | firstFails _ ih =>
    obtain ⟨p, rfl, hp⟩ := ih
    exact ⟨p, rfl, fun l hl => .firstFails (hp l hl)⟩
  | chain _ _ iha ih =>
    obtain ⟨p, rfl, ha⟩ := iha
    obtain ⟨q, rfl, hm⟩ := ih
    refine ⟨p ++ q, by simp, fun l hl => ?_⟩
    simpa using Reads.chain (ha (q ++ l) (head?_append_congr q hl)) (hm l hl)
  | stop hs => exact ⟨[], rfl, fun l hl => .stop (hs.congr hl)⟩
  | @linkFails level a t ts x rest ht _ ih =>
    obtain ⟨p, rfl, hp⟩ := ih
    exact ⟨t :: p, rfl, fun l hl => .linkFails ht (hp l hl)⟩
  | @link level a t ts b rest₀ out rest ht _ _ ihb ih =>
    obtain ⟨p, rfl, hb⟩ := ihb
    obtain ⟨q, rfl, hm⟩ := ih
    refine ⟨t :: (p ++ q), by simp, fun l hl => ?_⟩
    simpa using Reads.link ht (hb (q ++ l) (head?_append_congr q hl)) (hm l hl)
  | @prefixedFails t ts x rest ht _ ih =>
    obtain ⟨p, rfl, hp⟩ := ih
    exact ⟨t :: p, rfl, fun l hl => .prefixedFails ht (hp l hl)⟩
  | @prefixed t ts e rest ht _ ih =>
    obtain ⟨p, rfl, hp⟩ := ih
    exact ⟨t :: p, rfl, fun l hl => .prefixed ht (hp l hl)⟩
  | unprefixed hs _ ih =>
    obtain ⟨p, rfl, hp⟩ := ih
    exact ⟨p, rfl, fun l hl => .unprefixed (hs.congr (head?_append_congr p hl)) (hp l hl)⟩
  | nothingStarts hs =>
    refine ⟨[], rfl, fun l hl => ?_⟩
    rw [← blame_congr _ hl]
    exact .nothingStarts (hs.congr hl)
  | @atom t v rest ha => exact ⟨[t], rfl, fun l _ => .atom ha⟩
  | @innerFails t ts x rest hk _ ih =>
    obtain ⟨p, rfl, hp⟩ := ih
    exact ⟨t :: p, rfl, fun l hl => .innerFails hk (hp l hl)⟩
  | @parenMissing t ts e rest hk _ hr ih =>
    obtain ⟨p, rfl, hp⟩ := ih
    refine ⟨t :: p, rfl, fun l hl => ?_⟩
    rw [← blame_congr _ hl]
    exact .parenMissing hk (hp l hl) (hr.congr hl)
  | @group t ts e u rest hk _ hu ih =>
    obtain ⟨p, rfl, hp⟩ := ih
    refine ⟨t :: (p ++ [u]), by simp, fun l _ => ?_⟩
    simpa using Reads.group hk (hp (u :: l) rfl) hu

/-- A failed reading blames the token it leaves first. -/
theorem Reads.blames {g : Goal} {ts left : List Token} {x : SyntaxError}
    (h : Reads g ts (.error x) left) : ∃ what, x = blame what left := by
  generalize hout : Except.error x = out at h
  induction h with
  | unconditional | conditional | stop | prefixed | atom | group => cases hout
  | conditionFails _ ih | firstFails _ ih => exact ih hout
  | thenFails _ _ _ _ ih | elseFails _ _ _ _ _ _ _ ih | chain _ _ _ ih => exact ih hout
  | linkFails _ _ ih | link _ _ _ _ ih | prefixedFails _ _ ih | unprefixed _ _ ih
  | innerFails _ _ ih => exact ih hout
  | colonMissing | nothingStarts | parenMissing => exact ⟨_, Except.error.inj hout⟩

theorem Opens.lookahead {ts us : List Token} {wrap : Expr → Statement} {what : Expectation}
    (h : Opens ts wrap what us) :
    ∃ p, ts = p ++ us ∧ ∀ us', us'.head? = us.head? → Opens (p ++ us') wrap what us' := by
  cases h with
  | @print t us ht => exact ⟨[t], rfl, fun _ _ => .print ht⟩
  | bare hs => exact ⟨[], rfl, fun _ hus => .bare (hs.congr hus)⟩

theorem ReadsStatement.lookahead {ts left : List Token} {x : SyntaxError}
    (h : ReadsStatement ts (.error x) left) :
    ∃ p, ts = p ++ left ∧
      ∀ left', left'.head? = left.head? → ReadsStatement (p ++ left') (.error x) left' := by
  cases h with
  | valueFails ho hx =>
    obtain ⟨p, rfl, hp⟩ := ho.lookahead
    obtain ⟨q, rfl, hq⟩ := hx.lookahead
    refine ⟨p ++ q, by simp, fun l hl => ?_⟩
    simpa using valueFails (hp (q ++ l) (head?_append_congr q hl)) (hq l hl)
  | semicolonMissing ho he hs =>
    obtain ⟨p, rfl, hp⟩ := ho.lookahead
    obtain ⟨q, rfl, hq⟩ := he.lookahead
    refine ⟨p ++ q, by simp, fun l hl => ?_⟩
    rw [← blame_congr _ hl]
    simpa using semicolonMissing (hp (q ++ l) (head?_append_congr q hl)) (hq l hl) (hs.congr hl)

theorem ReadsStatement.detached {ts rest : List Token} {s : Statement}
    (h : ReadsStatement ts (.ok s) rest) :
    ∃ p, ts = p ++ rest ∧ ∀ rest', ReadsStatement (p ++ rest') (.ok s) rest' := by
  cases h with
  | @complete _ _ _ _ u _ ho he hu =>
    obtain ⟨p, rfl, hp⟩ := ho.lookahead
    obtain ⟨q, rfl, hq⟩ := he.lookahead
    refine ⟨p ++ (q ++ [u]), by simp, fun l => ?_⟩
    have ho' := hp (q ++ u :: l) (head?_append_congr q rfl)
    simpa using complete ho' (hq (u :: l) rfl) hu

theorem ReadsStatement.blames {ts left : List Token} {x : SyntaxError}
    (h : ReadsStatement ts (.error x) left) : ∃ what, x = blame what left := by
  cases h with
  | valueFails _ hx => exact hx.blames
  | semicolonMissing _ _ _ => exact ⟨_, rfl⟩

end Reckon.Parse
