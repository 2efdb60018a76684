import GraphCodec.Proofs.Calendar.Instants
import GraphCodec.Proofs.Codec.ReadBack

/-!
# Dates are read back

What the codec of dates writes for an instant it reads back down to whole milliseconds, provided
that the year of the instant in UTC has four digits (`CodecTable.decode_encode_date`).  An instant
of another year can be read, from a number or because of an offset, and is written with a sign in
front of the year, but such a text is refused.
-/

namespace GraphCodec

open Calendar

namespace CodecTable

/-- An instant is written as its text. -/
private theorem encodeJson_date (t : CodecTable) (d : Instant) :
    t.encodeJson .date (.date d) = .ok (.string d.text) := by
  rw [encodeJson_of_isNull rfl, encodeNonNull]
  rfl

/-- The text of an instant is read as the instant down to its whole milliseconds, or refused. -/
private theorem decodeJson_text (t : CodecTable) (d : Instant) :
    t.decodeJson .date (.string d.text) =
      if 0 ≤ d.year ∧ d.year ≤ 9999 then .ok (.date d.truncated)
      else .error (.malformedDate d.text (.date .invalid)) := by
  rw [decodeJson, Codec.decodeDate, d.parse_text_of_year]
  by_cases hyear : 0 ≤ d.year ∧ d.year ≤ 9999
  · rw [if_pos hyear, if_pos hyear]
  · rw [if_neg hyear, if_neg hyear]

/-- Every instant is written.  What is written is read back as the instant down to its whole
milliseconds if its year in UTC is one of 0 to 9999, and refused otherwise. -/
theorem decode_encode_date (t : CodecTable) (d : Instant) :
    ∃ written, t.encode .date (.date d) = .ok written ∧
      t.decode .date written =
        if 0 ≤ d.year ∧ d.year ≤ 9999 then .ok (.date d.truncated)
        else .error (.malformedDate d.text (.date .invalid)) := by
  -- The date is written as its text, which is a string of the JSON text.
  have hj := t.encodeJson_date d
  refine ⟨(Json.string d.text).render, by rw [encode_eq, hj]; rfl, ?_⟩
  rw [decode, Json.parse_render (readable_encodeJson hj), Json.reread]
  exact t.decodeJson_text d

/-- Because of its offset, the first instant of the year 0 that can be written is one of the year
before, which is not read back. -/
theorem not_decode_encode_date :
    let t := empty defaultTag
    ∃ d written, t.decode .date "\"0000-01-01T00:00:00+01:00\"" = .ok (.date d) ∧
      t.encode .date (.date d) = .ok written ∧ ¬∃ v, t.decode .date written = .ok v := by
  intro t
  -- The offset moves the instant into the year before.
  have hread : t.decode .date "\"0000-01-01T00:00:00+01:00\"" =
      .ok (.date ⟨-62167222800, 0, by decide⟩) := by cbv
  have hwritten : t.encode .date (.date ⟨-62167222800, 0, by decide⟩) =
      .ok "\"-0001-12-31T23:00:00.000Z\"" := by cbv
  -- The sign of that year is refused.
  have hrefused : t.decode .date "\"-0001-12-31T23:00:00.000Z\"" =
      .error (.malformedDate "-0001-12-31T23:00:00.000Z" (.date .invalid)) := by cbv
  refine ⟨_, _, hread, hwritten, ?_⟩
  rintro ⟨v, hv⟩
  cases hv.symm.trans hrefused

end CodecTable

end GraphCodec
