import WolfsslRs.Primality
import WolfsslRs.SpCurves
/-!
# SpOrders — the orders of the curves are prime (wolfssl-src, patches/sp_c64.c)

Inverses modulo an order are powers (`mont_inv_order`), which is only right if the order is prime.  For each order there is
a chain of Lucas's tests, that starts from primes below ten thousand.
-/
namespace Wolf
namespace Sp

open Primality

def p256Tests : List Test :=
  [⟨17449, 14, [2, 2, 2, 3, 727]⟩, ⟨38189, 2, [2, 2, 9547]⟩, ⟨126241, 7, [2, 2, 2, 2, 2, 3, 5, 263]⟩,
    ⟨104471, 11, [2, 5, 31, 337]⟩, ⟨3969899, 2, [2, 19, 104471]⟩, ⟨1002328039319, 19, [2, 126241, 3969899]⟩,
    ⟨16879, 3, [2, 3, 29, 97]⟩, ⟨155317, 5, [2, 2, 3, 7, 43, 43]⟩, ⟨191039911, 3, [2, 3, 5, 41, 155317]⟩,
    ⟨208150935158385979, 2, [2, 3, 11, 43, 127, 3023, 191039911]⟩,
    ⟨2624747550333869278416773953, 7, [2, 2, 2, 2, 2, 2, 3, 3, 1297, 16879, 208150935158385979]⟩,
    ⟨311245691, 2, [2, 5, 7, 17, 29, 29, 311]⟩, ⟨622491383, 5, [2, 311245691]⟩, ⟨9350987, 2, [2, 17, 229, 1201]⟩,
    ⟨187019741, 2, [2, 2, 5, 9350987]⟩,
    ⟨115792089210356248762697446949407573529996955224135760342422259061068512044369, 7, [2, 2, 2, 2, 3, 71, 131, 373,
      3407, 17449, 38189, 187019741, 622491383, 1002328039319, 2624747550333869278416773953]⟩]

def p384Tests : List Test :=
  [⟨16979, 2, [2, 13, 653]⟩, ⟨330563, 2, [2, 19, 8699]⟩, ⟨1436833069313, 3, [2, 2, 2, 2, 2, 2, 2, 2, 16979, 330563]⟩,
    ⟨1276987, 2, [2, 3, 29, 41, 179]⟩, ⟨37447, 3, [2, 3, 79, 79]⟩, ⟨8463023, 5, [2, 113, 37447]⟩,
    ⟨9863677, 5, [2, 2, 3, 3, 311, 881]⟩, ⟨37344768852931, 3, [2, 3, 5, 7, 11, 11, 149, 9863677]⟩,
    ⟨55942463741690639, 7, [2, 7, 107, 37344768852931]⟩, ⟨248431, 3, [2, 3, 5, 7, 7, 13, 13]⟩,
    ⟨64901, 2, [2, 2, 5, 5, 11, 59]⟩, ⟨272109983, 5, [2, 19, 73, 233, 421]⟩,
    ⟨228572385721, 23, [2, 2, 2, 3, 5, 7, 272109983]⟩, ⟨23314383343543, 3, [2, 3, 17, 228572385721]⟩,
    ⟨426632512014427833817, 11, [2, 2, 2, 3, 13, 89, 659, 23314383343543]⟩,
    ⟨1495199339761412565498084319, 6, [2, 3, 3, 3, 64901, 426632512014427833817]⟩,
    ⟨17942392077136950785977011829, 6, [2, 2, 3, 1495199339761412565498084319]⟩,
    ⟨1059392654943455286185473617842338478315215895509773412096307, 2, [2, 251, 248431, 8463023, 55942463741690639,
      17942392077136950785977011829]⟩,
    ⟨3055465788140352002733946906144561090641249606160407884365391979704929268480326390471, 12, [2, 3, 5, 151, 347,
      1276987, 1436833069313, 1059392654943455286185473617842338478315215895509773412096307]⟩,
    ⟨290064143, 5, [2, 79, 491, 3739]⟩, ⟨455737, 11, [2, 2, 2, 3, 17, 1117]⟩, ⟨154950581, 2, [2, 2, 5, 17, 455737]⟩,
    ⟨34429, 2, [2, 2, 3, 19, 151]⟩, ⟨120699720968197491947347, 3, [2, 3, 13, 34429, 154950581, 290064143]⟩,
    ⟨1124679999981664229965379347, 2, [2, 3, 1553, 120699720968197491947347]⟩,
    ⟨39402006196394479212279040100143613805079739270465446667946905279627659399113263569398956308152294913554433653942643,
      2, [2, 3, 3, 7, 7, 13, 1124679999981664229965379347,
      3055465788140352002733946906144561090641249606160407884365391979704929268480326390471]⟩]

def p521Tests : List Test :=
  [⟨370471, 3, [2, 3, 5, 53, 233]⟩, ⟨20341, 2, [2, 2, 3, 3, 5, 113]⟩, ⟨10577321, 17, [2, 2, 2, 5, 13, 20341]⟩,
    ⟨777241, 7, [2, 2, 2, 3, 3, 5, 17, 127]⟩, ⟨17467, 3, [2, 3, 41, 71]⟩, ⟨19353437, 2, [2, 2, 277, 17467]⟩,
    ⟨60018716061994831, 7, [2, 3, 5, 7, 19, 777241, 19353437]⟩,
    ⟨4239602065187190872179, 2, [2, 3, 61, 193, 60018716061994831]⟩, ⟨10861, 2, [2, 2, 3, 5, 181]⟩,
    ⟨17293, 7, [2, 2, 3, 11, 131]⟩, ⟨8196883, 2, [2, 3, 79, 17293]⟩,
    ⟨43800962361397, 6, [2, 2, 3, 41, 10861, 8196883]⟩,
    ⟨7427946019382605513260578233234962521, 3, [2, 2, 2, 5, 43800962361397, 4239602065187190872179]⟩,
    ⟨495527, 5, [2, 41, 6043]⟩, ⟨6937379, 2, [2, 7, 495527]⟩, ⟨101785224689, 3, [2, 2, 2, 2, 7, 131, 6937379]⟩,
    ⟨15994076126984618329123851002118749004583184815459808099, 2, [2, 10577321, 101785224689,
      7427946019382605513260578233234962521]⟩, ⟨15601, 23, [2, 2, 2, 2, 3, 5, 5, 13]⟩,
    ⟨65677, 2, [2, 2, 3, 13, 421]⟩, ⟨92581, 6, [2, 2, 3, 5, 1543]⟩, ⟨10924559, 7, [2, 59, 92581]⟩,
    ⟨3473195323567808068309, 2, [2, 2, 3, 3, 13, 19, 59, 9227, 65677, 10924559]⟩, ⟨14461, 2, [2, 2, 3, 5, 241]⟩,
    ⟨133279, 3, [2, 3, 97, 229]⟩,
    ⟨144471089338257942164514676806340723, 11, [2, 3, 3, 11, 109, 14461, 133279, 3473195323567808068309]⟩,
    ⟨3636410625392624440351547907325502812950802686368714273274221490761556277859337865760708490235892541081304511,
      19, [2, 5, 19, 263, 5449, 15601, 370471, 144471089338257942164514676806340723,
      15994076126984618329123851002118749004583184815459808099]⟩, ⟨161969, 3, [2, 2, 2, 2, 53, 191]⟩,
    ⟨3615194794881930010216942559103847593050265703173292383701371712350878926821661243755933835426896058418509759880171943,
      3, [2, 3, 3, 11, 31, 161969,
      3636410625392624440351547907325502812950802686368714273274221490761556277859337865760708490235892541081304511]⟩,
    ⟨186406729, 7, [2, 2, 2, 3, 61, 157, 811]⟩,
    ⟨88599952463812275001, 11, [2, 2, 2, 3, 5, 5, 5, 5, 5, 19, 281, 1187, 186406729]⟩,
    ⟨1647781915921980690468599, 13, [2, 17, 547, 88599952463812275001]⟩,
    ⟨1458105463, 3, [2, 3, 3, 3, 3, 3, 11, 311, 877]⟩,
    ⟨6864797660130609714981900799081393217269435300143305409394463459185543183397655394245057746333217197532963996371363321113864768612440380340372808892707005449,
      3, [2, 2, 2, 7, 11, 1283, 1458105463, 1647781915921980690468599,
      3615194794881930010216942559103847593050265703173292383701371712350878926821661243755933835426896058418509759880171943]⟩]

def Curve.primeTests : Curve → List Test
  | .p256 => p256Tests
  | .p384 => p384Tests
  | .p521 => p521Tests

theorem Curve.n_tested (c : Curve) : (c.primeTests.map Test.p).getLast? = some c.n.toNat := by
  cases c <;> decide +kernel

theorem Curve.primeTests_pass (c : Curve) : allPass [] c.primeTests = true := by
  cases c <;> decide +kernel

/-- **The orders are prime.** -/
theorem Curve.n_prime (c : Curve) : c.n.toNat.Prime := by
  obtain ⟨t, ht, hp⟩ := List.mem_map.1 (List.mem_of_getLast? c.n_tested)
  rw [← hp]
  exact prime_of_allPass (fun q hq => by cases hq) c.primeTests_pass t ht

instance (c : Curve) : Fact c.n.toNat.Prime := ⟨c.n_prime⟩

end Sp
end Wolf
