/-!
# Suffixes of emitted names

A function of the program is emitted under its own name followed by a number. The numbers come from a fixed
list; they are pairwise different and have four digits.
-/

namespace Tabc.Scope

/-- The numbers that follow the names of emitted functions, in the order of their use. -/
def suffixes : List Nat :=
  [2221,6381,4989,2071,3623,2605,2988,2920,1288,2166,7281,5031,7330,6172,5117,2466,1238,1427,2497,5641,1397,2349,8145,
   9147,9594,4370,1431,2409,4133,4883,3800,1891,4922,1033,9858,5346,4564,1917,9985,3654,1851,2915,1763,6424,2337,2750,
   1795,1083,9759,1835,2206,9887,1225,6184,9424,3431,5041,7278,2703,8476,6928,8629,1503,9383,4593,6096,3764,2647,2845,
   1047,2321,5998,6285,1031,1769,5595,6952,3987,4707,8328,9231,4940,5432,1865,7293,2640,6038,2004,4631,7433,4793,9203,
   4433,1206,3100,9192,3002,5834,3749,6640,4857,6648,3262,4624,2660,8314,1950,2244,1974,3978,6593,9934,7065,8048,6302,
   9288,4367,7352,4074,6065,6063,7954,2103,5743,2876,7009,5018,7037,4176,8910,7906,6698,2031,7375,6795,2992,4080,6147,
   1256,8933,6589,1447,5801,6848,7505,6974,1810,3955,7762,8764,1312,5057,6643,5814,9463,2298,7889,2818,7647,1913,6316,
   2717,8026,4406,1837,7510,5398,4839,8485,5330,1786,1907,5177,8248,3989,6478,1304,6934,7794,8431,2101,1785,1731,2143,
   4258,3496,6775,6153,9421,7477,5794,4568,7508,4489,8223,5519,9202,2952,5227,9410,5220,2148,7017,2072,3215,2556,8616,
   6488,4064,7126,7964,2852,8713,3608,8339,3320,4404,8720,2006,8250,5447,8703,4221,4675,9099,8332,6207,8573,8517,3333,
   4169,3148,2189,6716,1080,7995,1868,1421,3904,4892,5315,1277,3367,2286,6975,1668,1955,3352,5215,5377,2612,6872,5494,
   4028,8528,1610,6227,4535,2332,2540,2520,4355,9400,4440,8143,2180,9915,5977,5912,4115,1854,1339,8875,1101,7550,1142,
   4136,2353,4852,1297,6530,3688,4259,6785,9558,3704,8870,4765,1023,2931,5622,2602,7025,1122,9697,3330,3468,9289,2761,
   3437,7810,2214,8846,5600,7864,3104,7594,2178,3965,1284,3485,4875,1432,3005,7633,3632,5374,4384,5805,2029,7031,3580,
   6571,5204,8421,1107,9913,8337,4613,7022,8603,6950,1009,2391,2766,2376,9953,6867,4870,6504,4616,3206,6443,9946,7462,
   7358,2730,3006,9191,8459,3195,7252,1349,4013,3481,5176,2444,7608,8642,5413,7684,4177,9804,9077,4210,4279,5260,7097,
   5108,3601,2975,2578,5361,2426,3604,3799,8321,1876,5762,1145,5704,2532,2128,3692,4427,9365,7167,8398,4812,6006,2138,
   7447,1982,5921,5189,6334,2343,8816,6422,6219,6196,3652,3879,6309,7103,9492,8242,9372,6402,1110,5513,3783,5336,2307,
   8175,1201,9345,2908,9142,9776,7766,9007,3453,9731,3664,8832,2215,6524,7679,2335,8813,9709,1957,8592,9295,6144,9287,
   8777,5656,8746,5999,4245,3977,7899,3359,6046,9592,9631,2211,4051,5490,7236,2672,8218,4291,1095,2947,9499,1129,5785,
   4966,1486,3767,8716,4197,5240,7391,2291,8134,6062,9101,6284,2936,2046,3996,9330,7681,2066,7134,8406,6978,5253,7763,
   4650,6880,1933,2701,7943,9727,8146,5712,5760,8492,5534,6128,9939,3641,1559,7696,9448,9444,4150,6965,9326,3545,4969,
   1968,3889,7983,7688,2538,2236,6783,6866,8187,5232,1317,4451,2459,3180,1479,3629,6294,6705,7063,5454,7793,3919,1189,
   4694,5839,6086,5173,3021,8612,4244,1247,4378,6103,8593,9660,1228,9796,6682,7124,5156,5276,9526,9164,9394,2549,3963,
   8894,7817,5678,3296,7501,1541,7213,3491,9221,7249,9572,4271,3356,6150,1686,8607,8438,5020,7648,2251,1590,7481,5876,
   3126,5645,6550,4282,1925,1460,4652,6496,9844,1197,9702,9610,8693,5048,5263,6810,2390,3720,2617,4124,8166,8595,7529,
   7096,9129,6813,1808,1164,7932,4322,9443,4548,7926,3201,9898,4453,6582,3204,8429,2582,9810,4054,1429,6641,5564,9936,
   1833,6695,3403,6423,3934,4802,9469,3354,5668,5469,2535,7998,9561,8844,5563,1329,6013,1154,3810,3918,3988,6250,4309,
   5422,6881,6855,9334,3209,9293,7380,7479,7615,9349,2573,3675,6383,3443,2498,1688,6155,1176,4665,2170,4360,9740,5663,
   1052,8589,2623,9230,9423,6303,4724,8710,7911,1313,2242,6494,9879,4460,7305,8324,6535,2407,3255,6973,4458,4089,1440,
   9910,6202,3794,2504,6325,1964,6398,4052,7308,8207,8469,8644,8565,5929,5528,2287,4423,8046,7538,6684,6271,7825,5049,
   8197,6204,1482,2546,5959,1118,7606,6790,4058,1637,5917,3166,5508,1960,4615,6162,8791,5116,1947,7834,9510,2691,1364,
   5149,8196,1253,4233,9484,5200,1089,4869,2329,7053,4287,9552,8659,2697,7101,2352,2222,2967,1863,2812,2782,4623,3120,
   8397,4789,6714,2740,3259,8835,7325,3434,8358,8599,1140,6267,6469,2233,1425,8776,9774,9962,8704,6812,1489,2062,2383,
   3970,1558,4098,2322,2129,7662,7713,1768,2386,1589,4983,9125,7082,4786,8514,4991,7113,1478,1867,9031,1990,8430,9055,
   2632,2690,3252,2053,5920,9882,9800,9634,9576,6058,9918,8139,1471,2090,9772,5299,8898,9988,3835,2363,7361,9937,8482,
   8760,3881,4324,1213,4643,3657,2380,3839,3102,9664,5535,1793,2625,6715,9100,5491,3770,7275,3335,8395,7880,2074,2932,
   5849,2418,3249,5550,8879,3304,5669,6808,1242,5820,7371,4417,8379,1997,1799,1194,3430,2970,3690,5308,3830,1827,1481,
   5242,3802,5756,7051,7110,9353,7568,2569,4783,7963,2085,5067,6670,9148,8022,7248,1416,1903,9478,2688,5667,6032,2455,
   6320,5417,8274,4632,4496,2830,8103,1010,6385,7208,1300,4256,7589,4441,8394,6989,2801,6688,2421,9553,6995,1705,9272,
   3649,4879,7592,2987,1560,5396,3446,5423,1887,1675,3827,3381,2530,4148,7523,2127,7883,4246,9807,9138,2389,9205,1286,
   9843,3182,2368,1135,6410,4326,4238,2986,1063,2835,7958,4878,1384,3279,9056,7206,1897,7736,1086,4268,1707,6597,5606,
   7496,4438,5370,2437,7910,4674,4358,5770,2665,7285,2037,9294,3169,2817,1841,4899,3759,3574,7923,8405,3775,7209,1670,
   6472,2324,8597,9237,6543,1105,4049,3269,5376,7116,8585]

end Tabc.Scope
