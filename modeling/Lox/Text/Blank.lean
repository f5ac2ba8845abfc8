namespace Lox.Text

-- White space in the sense of Unicode, with the four separators U+001C to U+001F counted in.
def isBlank (c : Char) : Bool :=
  ('\t' ≤ c && c ≤ '\r') || ('\x1c' ≤ c && c ≤ ' ') || ('\u2000' ≤ c && c ≤ '\u200a') ||
    ['\u0085', '\u00a0', '\u1680', '\u2028', '\u2029', '\u202f', '\u205f', '\u3000'].contains c

end Lox.Text
